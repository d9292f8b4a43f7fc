import PonBeam.Receive.Rewrite

/-!
# Premises against patterns

What a pattern of atoms, integers, variables, tuples, lists and aliases accepts is a shape
(`Shape`): its aliases merged, its variables left open (`merged`). `match_pattern` on the term
that `pat_to_term` writes accepts a shape as well (`reading`): the left sides of the aliases
only, with every atom outside the tuples of 1 or more than 4 elements left open, and every
variable inside one the atom `'_'`. Two shapes accept the same terms only if they are the
same, so premise and pattern agree on all messages exactly if the two are.
-/

namespace PonBeam.Receive

/-! ## Shapes -/

/-- A linear pattern without names. -/
inductive Shape : Type where
  /-- anything -/
  | any
  /-- this atom -/
  | atom (name : String)
  /-- this integer -/
  | int (n : ℤ)
  /-- `[]` -/
  | nil
  /-- `[hd | tl]` -/
  | cons (hd tl : Shape)
  /-- a tuple of these elements -/
  | tuple (elems : List Shape)

mutual

/-- The terms of a shape. -/
def Shape.covers : Shape → Term → Bool
  | .any, _ => true
  | .atom a, v => decide (v = .atom a)
  | .int i, v => decide (v = .int i)
  | .nil, v => decide (v = .nil)
  | .cons s r, .cons v w => s.covers v && r.covers w
  | .cons _ _, _ => false
  | .tuple ss, .tuple vs => Shape.coversAll ss vs
  | .tuple _, _ => false

/-- The tuples of some shapes. -/
def Shape.coversAll : List Shape → List Term → Bool
  | [], [] => true
  | s :: ss, v :: vs => s.covers v && Shape.coversAll ss vs
  | _, _ => false

end

mutual

/-- What two shapes have in common, if there is anything. -/
def Shape.meet : Shape → Shape → Option Shape
  | .any, r => some r
  | s, .any => some s
  | .atom a, .atom b => if a = b then some (.atom a) else none
  | .int i, .int j => if i = j then some (.int i) else none
  | .nil, .nil => some .nil
  | .cons s r, .cons s' r' => (s.meet s').bind fun m => (r.meet r').map (.cons m)
  | .tuple ss, .tuple rs => (Shape.meetAll ss rs).map .tuple
  | _, _ => none

/-- Element by element. -/
def Shape.meetAll : List Shape → List Shape → Option (List Shape)
  | [], [] => some []
  | s :: ss, r :: rs => (s.meet r).bind fun m => (Shape.meetAll ss rs).map (m :: ·)
  | _, _ => none

end

mutual

/-- A term of the shape. -/
def Shape.sample : Shape → Term
  | .any => .nil
  | .atom a => .atom a
  | .int i => .int i
  | .nil => .nil
  | .cons s r => .cons s.sample r.sample
  | .tuple ss => .tuple (Shape.samples ss)

/-- A term of each shape. -/
def Shape.samples : List Shape → List Term
  | [] => []
  | s :: ss => s.sample :: Shape.samples ss

end

mutual

theorem Shape.covers_sample (s : Shape) : s.covers s.sample = true := by
  cases s with
  | any => rfl
  | atom a => simp [Shape.sample, Shape.covers]
  | int i => simp [Shape.sample, Shape.covers]
  | nil => simp [Shape.sample, Shape.covers]
  | cons s r =>
    rw [Shape.sample, Shape.covers, Shape.covers_sample s, Shape.covers_sample r]
    rfl
  | tuple ss =>
    rw [Shape.sample, Shape.covers]
    exact Shape.coversAll_samples ss

theorem Shape.coversAll_samples (ss : List Shape) :
    Shape.coversAll ss (Shape.samples ss) = true := by
  cases ss with
  | nil => rfl
  | cons s ss =>
    rw [Shape.samples, Shape.coversAll, Shape.covers_sample s, Shape.coversAll_samples ss]
    rfl

end

mutual

/-- What two shapes have in common is what both cover. -/
theorem Shape.any_meet (s r : Shape) (v : Term) :
    (s.meet r).any (·.covers v) = (s.covers v && r.covers v) := by
  have hleft : ∀ (a b : Term), a ≠ b → (decide (v = a) && decide (v = b)) = false := by
    intro a b hne
    by_cases hv : v = a
    · simp [hv, hne]
    · simp [hv]
  cases s with
  | any => simp [Shape.meet, Shape.covers]
  | atom a =>
    cases r with
    | any => simp [Shape.meet, Shape.covers]
    | atom b =>
      by_cases hab : a = b
      · simp [Shape.meet, Shape.covers, hab]
      · rw [Shape.covers, Shape.covers, hleft _ _ fun he => hab (Term.atom.inj he)]
        simp [Shape.meet, hab]
    | int j => exact (hleft _ _ Term.noConfusion).symm
    | nil => exact (hleft _ _ Term.noConfusion).symm
    | cons s' r' => cases v <;> simp [Shape.meet, Shape.covers]
    | tuple rs => cases v <;> simp [Shape.meet, Shape.covers]
  | int i =>
    cases r with
    | any => simp [Shape.meet, Shape.covers]
    | atom b => exact (hleft _ _ Term.noConfusion).symm
    | int j =>
      by_cases hij : i = j
      · simp [Shape.meet, Shape.covers, hij]
      · rw [Shape.covers, Shape.covers, hleft _ _ fun he => hij (Term.int.inj he)]
        simp [Shape.meet, hij]
    | nil => exact (hleft _ _ Term.noConfusion).symm
    | cons s' r' => cases v <;> simp [Shape.meet, Shape.covers]
    | tuple rs => cases v <;> simp [Shape.meet, Shape.covers]
  | nil =>
    cases r with
    | any => simp [Shape.meet, Shape.covers]
    | atom b => exact (hleft _ _ Term.noConfusion).symm
    | int j => exact (hleft _ _ Term.noConfusion).symm
    | nil => simp [Shape.meet, Shape.covers]
    | cons s' r' => cases v <;> simp [Shape.meet, Shape.covers]
    | tuple rs => cases v <;> simp [Shape.meet, Shape.covers]
  | cons s₁ s₂ =>
    cases r with
    | any => simp [Shape.meet, Shape.covers]
    | cons r₁ r₂ =>
      cases v with
      | cons v w =>
        have h₁ := Shape.any_meet s₁ r₁ v
        have h₂ := Shape.any_meet s₂ r₂ w
        simp only [Shape.meet, Shape.covers]
        rw [show (s₁.covers v && s₂.covers w && (r₁.covers v && r₂.covers w))
          = (s₁.covers v && r₁.covers v && (s₂.covers w && r₂.covers w)) from by
            ac_rfl, ← h₁, ← h₂]
        cases s₁.meet r₁ <;> cases s₂.meet r₂ <;> simp [Shape.covers]
      | _ =>
        simp only [Shape.meet, Shape.covers]
        cases s₁.meet r₁ <;> cases s₂.meet r₂ <;> simp [Shape.covers]
    | _ => cases v <;> simp [Shape.meet, Shape.covers]
  | tuple ss =>
    cases r with
    | any => simp [Shape.meet, Shape.covers]
    | tuple rs =>
      cases v with
      | tuple vs =>
        have hall := Shape.any_meetAll ss rs vs
        simp only [Shape.meet, Shape.covers]
        rw [← hall]
        cases Shape.meetAll ss rs <;> simp [Shape.covers]
      | _ =>
        simp only [Shape.meet, Shape.covers]
        cases Shape.meetAll ss rs <;> simp [Shape.covers]
    | _ => cases v <;> simp [Shape.meet, Shape.covers]

theorem Shape.any_meetAll (ss rs : List Shape) (vs : List Term) :
    (Shape.meetAll ss rs).any (Shape.coversAll · vs)
      = (Shape.coversAll ss vs && Shape.coversAll rs vs) := by
  cases ss with
  | nil =>
    cases rs with
    | nil => simp [Shape.meetAll]
    | cons r rs => cases vs <;> simp [Shape.meetAll, Shape.coversAll]
  | cons s ss =>
    cases rs with
    | nil => cases vs <;> simp [Shape.meetAll, Shape.coversAll]
    | cons r rs =>
      cases vs with
      | nil =>
        simp only [Shape.meetAll, Shape.coversAll]
        cases s.meet r <;> cases Shape.meetAll ss rs <;> simp [Shape.coversAll]
      | cons v vs =>
        have h₁ := Shape.any_meet s r v
        have h₂ := Shape.any_meetAll ss rs vs
        simp only [Shape.meetAll, Shape.coversAll]
        rw [show (s.covers v && Shape.coversAll ss vs && (r.covers v && Shape.coversAll rs vs))
          = (s.covers v && r.covers v && (Shape.coversAll ss vs && Shape.coversAll rs vs)) from by
            ac_rfl, ← h₁, ← h₂]
        cases s.meet r <;> cases Shape.meetAll ss rs <;> simp [Shape.coversAll]

end

/-- Only the open shape covers a pid. -/
theorem Shape.covers_other (s : Shape) (h : s.covers (.other 0) = true) : s = .any := by
  cases s with
  | any => rfl
  | atom a => simp [Shape.covers] at h
  | int i => simp [Shape.covers] at h
  | nil => simp [Shape.covers] at h
  | cons s r => cases h
  | tuple ss => cases h

mutual

/-- **Shapes are what they cover.** -/
theorem Shape.ext_covers (s r : Shape) (h : ∀ v, s.covers v = r.covers v) : s = r := by
  have hself := Shape.covers_sample s
  rw [h] at hself
  have hopen := h (.other 0)
  cases s with
  | any => exact (Shape.covers_other r hopen.symm).symm
  | atom a =>
    cases r with
    | any => simp [Shape.covers] at hopen
    | atom b => simpa [Shape.covers, Shape.sample] using hself
    | _ => simp [Shape.covers, Shape.sample] at hself
  | int i =>
    cases r with
    | any => simp [Shape.covers] at hopen
    | int j => simpa [Shape.covers, Shape.sample] using hself
    | _ => simp [Shape.covers, Shape.sample] at hself
  | nil =>
    cases r with
    | any => simp [Shape.covers] at hopen
    | nil => rfl
    | _ => simp [Shape.covers, Shape.sample] at hself
  | cons s₁ s₂ =>
    cases r with
    | any => simp [Shape.covers] at hopen
    | cons r₁ r₂ =>
      simp only [Shape.sample, Shape.covers, Bool.and_eq_true] at hself
      have h₁ : s₁ = r₁ := Shape.ext_covers s₁ r₁ fun v => by
        simpa [Shape.covers, Shape.covers_sample, hself.2] using h (.cons v s₂.sample)
      have h₂ : s₂ = r₂ := Shape.ext_covers s₂ r₂ fun v => by
        simpa [Shape.covers, Shape.covers_sample, hself.1] using h (.cons s₁.sample v)
      rw [h₁, h₂]
    | _ => simp [Shape.covers, Shape.sample] at hself
  | tuple ss =>
    cases r with
    | any => simp [Shape.covers] at hopen
    | tuple rs =>
      have hall : ss = rs := Shape.ext_coversAll ss rs fun vs => by
        simpa [Shape.covers] using h (.tuple vs)
      rw [hall]
    | _ => simp [Shape.covers, Shape.sample] at hself

theorem Shape.ext_coversAll (ss rs : List Shape)
    (h : ∀ vs, Shape.coversAll ss vs = Shape.coversAll rs vs) : ss = rs := by
  have hself := Shape.coversAll_samples ss
  rw [h] at hself
  cases ss with
  | nil =>
    cases rs with
    | nil => rfl
    | cons r rs => cases hself
  | cons s ss =>
    cases rs with
    | nil => cases hself
    | cons r rs =>
      simp only [Shape.samples, Shape.coversAll, Bool.and_eq_true] at hself
      have h₁ : s = r := Shape.ext_covers s r fun v => by
        simpa [Shape.coversAll, Shape.coversAll_samples, hself.2] using h (v :: Shape.samples ss)
      have h₂ : ss = rs := Shape.ext_coversAll ss rs fun vs => by
        simpa [Shape.coversAll, Shape.covers_sample, hself.1] using h (s.sample :: vs)
      rw [h₁, h₂]

end

/-! ## What a pattern accepts -/

mutual

/-- Built from atoms, integers, variables, tuples, lists and aliases. -/
def simplePat : Expr → Bool
  | .atom _ _ => true
  | .integer _ _ => true
  | .var _ _ => true
  | .nil _ => true
  | .cons _ h t => simplePat h && simplePat t
  | .tuple _ es => simplePats es
  | .match _ p q => simplePat p && simplePat q
  | _ => false

/-- All of them. -/
def simplePats : List Expr → Bool
  | [] => true
  | e :: es => simplePat e && simplePats es

end

mutual

/-- The occurrences of variables; `_` is none. -/
def patVars : Expr → List String
  | .var _ x => if x = "_" then [] else [x]
  | .cons _ h t => patVars h ++ patVars t
  | .tuple _ es => patsVars es
  | .match _ p q => patVars p ++ patVars q
  | _ => []

/-- The occurrences in all of them. -/
def patsVars : List Expr → List String
  | [] => []
  | e :: es => patVars e ++ patsVars es

end

mutual

/-- The shape of a pattern, its aliases merged; there is none if they contradict each other. -/
def merged : Expr → Option Shape
  | .atom _ a => some (.atom a)
  | .integer _ i => some (.int i)
  | .var _ _ => some .any
  | .nil _ => some .nil
  | .cons _ h t => (merged h).bind fun s => (merged t).map (.cons s)
  | .tuple _ es => (mergedAll es).map .tuple
  | .match _ p q => (merged p).bind fun s => (merged q).bind fun r => s.meet r
  | _ => none

/-- Element by element. -/
def mergedAll : List Expr → Option (List Shape)
  | [] => some []
  | e :: es => (merged e).bind fun s => (mergedAll es).map (s :: ·)

end

/-- The bindings of a process that has bound nothing. -/
def noBindings : Env := fun _ => none

/-- `e` binds its variables to what it takes, and nothing else. -/
structure Binds (e : Option Env) (xs : List String) (env : Env) (ok : Bool) : Prop where
  /-- it matches or it does not -/
  isSome : e.isSome = ok
  /-- the other variables stay -/
  frame : ∀ env', e = some env' → ∀ x, x ∉ xs → env' x = env x

/-- One match after another. -/
theorem Binds.andThen {e : Option Env} {f : Env → Option Env} {xs ys : List String} {env : Env}
    {ok ok' : Bool} (h : Binds e xs env ok) (h' : ∀ env', (∀ x, x ∉ xs → env' x = env x) →
      Binds (f env') ys env' ok') : Binds (e.bind f) (xs ++ ys) env (ok && ok') := by
  cases e with
  | none =>
    have hok : ok = false := h.isSome.symm
    exact ⟨by rw [hok]; rfl, fun env' he => by cases he⟩
  | some env₁ =>
    have hok : ok = true := h.isSome.symm
    have hframe := h.frame env₁ rfl
    obtain ⟨hsome, hrest⟩ := h' env₁ hframe
    refine ⟨by rw [hok, Bool.true_and]; exact hsome, fun env' he x hx => ?_⟩
    rw [List.mem_append, not_or] at hx
    rw [hrest env' he x hx.2, hframe x hx.1]

theorem Binds.literal {env : Env} {v w : Term} :
    Binds (if v = w then some env else none) [] env (decide (v = w)) := by
  split
  · next hv => exact ⟨by simp [hv], fun env' he x _ => by rw [Option.some.inj he]⟩
  · next hv => exact ⟨by simp [hv], fun env' he => by cases he⟩

theorem Binds.none {xs : List String} {env : Env} : Binds Option.none xs env false :=
  ⟨rfl, fun env' he => by cases he⟩

mutual

/-- **A pattern accepts its shape**, whatever its variables are called, as long as each occurs
once and is not bound yet. -/
theorem matchPat_binds (S : Sem) (e : Expr) (env : Env) (v : Term) (hs : simplePat e = true)
    (hnd : (patVars e).Nodup) (hfree : ∀ x ∈ patVars e, env x = none) :
    Binds (matchPat S e env v) (patVars e) env ((merged e).any (·.covers v)) := by
  cases e with
  | atom l a =>
    simp only [matchPat, patVars]
    exact Binds.literal
  | integer l i =>
    simp only [matchPat, patVars]
    exact Binds.literal
  | nil l =>
    simp only [matchPat, patVars]
    exact Binds.literal
  | var l x =>
    rw [matchPat]
    rw [patVars] at hfree ⊢
    by_cases hx : x = "_"
    · rw [if_pos hx, if_pos hx]
      exact ⟨rfl, fun env' he y _ => by rw [Option.some.inj he]⟩
    · rw [if_neg hx] at hfree ⊢
      rw [if_neg hx, hfree x (List.mem_singleton.mpr rfl)]
      refine ⟨rfl, fun env' he y hy => ?_⟩
      rw [← Option.some.inj he]
      exact if_neg (fun h => hy (List.mem_singleton.mpr h))
  | cons l h t =>
    rw [simplePat, Bool.and_eq_true] at hs
    rw [patVars] at hnd hfree ⊢
    obtain ⟨hnd₁, hnd₂, hdisj⟩ := List.nodup_append.mp hnd
    cases v with
    | cons v w =>
      have hok : (merged (.cons l h t)).any (·.covers (.cons v w))
          = ((merged h).any (·.covers v) && (merged t).any (·.covers w)) := by
        rw [merged]
        cases merged h <;> cases merged t <;> simp [Shape.covers]
      rw [matchPat, hok]
      refine (matchPat_binds S h env v hs.1 hnd₁ fun x hx =>
        hfree x (List.mem_append_left _ hx)).andThen fun env' hframe => ?_
      refine matchPat_binds S t env' w hs.2 hnd₂ fun x hx => ?_
      rw [hframe x fun hx' => hdisj x hx' x hx rfl]
      exact hfree x (List.mem_append_right _ hx)
    | _ =>
      rw [merged]
      cases merged h <;> cases merged t <;> exact Binds.none
  | tuple l es =>
    rw [simplePat] at hs
    rw [patVars] at hnd hfree ⊢
    cases v with
    | tuple vs =>
      have hok : (merged (.tuple l es)).any (·.covers (.tuple vs))
          = (mergedAll es).any (Shape.coversAll · vs) := by
        rw [merged]
        cases mergedAll es <;> simp [Shape.covers]
      rw [matchPat, hok]
      exact matchPats_binds S es env vs hs hnd hfree
    | _ =>
      rw [merged]
      cases mergedAll es <;> exact Binds.none
  | «match» l p q =>
    rw [simplePat, Bool.and_eq_true] at hs
    rw [patVars] at hnd hfree ⊢
    obtain ⟨hnd₁, hnd₂, hdisj⟩ := List.nodup_append.mp hnd
    have hok : (merged (.match l p q)).any (·.covers v)
        = ((merged p).any (·.covers v) && (merged q).any (·.covers v)) := by
      rw [merged]
      cases merged p with
      | none => rfl
      | some s =>
        cases merged q with
        | none => simp
        | some r => exact Shape.any_meet s r v
    rw [matchPat, hok]
    refine (matchPat_binds S p env v hs.1 hnd₁ fun x hx =>
      hfree x (List.mem_append_left _ hx)).andThen fun env' hframe => ?_
    refine matchPat_binds S q env' v hs.2 hnd₂ fun x hx => ?_
    rw [hframe x fun hx' => hdisj x hx' x hx rfl]
    exact hfree x (List.mem_append_right _ hx)
  | _ => cases hs

theorem matchPats_binds (S : Sem) (es : List Expr) (env : Env) (vs : List Term)
    (hs : simplePats es = true) (hnd : (patsVars es).Nodup)
    (hfree : ∀ x ∈ patsVars es, env x = none) :
    Binds (matchPats S es env vs) (patsVars es) env ((mergedAll es).any (Shape.coversAll · vs)) := by
  cases es with
  | nil =>
    cases vs with
    | nil => exact ⟨rfl, fun env' he x _ => by rw [Option.some.inj he]⟩
    | cons v vs => exact Binds.none
  | cons e es =>
    rw [simplePats, Bool.and_eq_true] at hs
    rw [patsVars] at hnd hfree ⊢
    obtain ⟨hnd₁, hnd₂, hdisj⟩ := List.nodup_append.mp hnd
    cases vs with
    | nil =>
      rw [mergedAll]
      cases merged e <;> cases mergedAll es <;> exact Binds.none
    | cons v vs =>
      have hok : (mergedAll (e :: es)).any (Shape.coversAll · (v :: vs))
          = ((merged e).any (·.covers v) && (mergedAll es).any (Shape.coversAll · vs)) := by
        rw [mergedAll]
        cases merged e <;> cases mergedAll es <;> simp [Shape.coversAll]
      rw [matchPats, hok]
      refine (matchPat_binds S e env v hs.1 hnd₁ fun x hx =>
        hfree x (List.mem_append_left _ hx)).andThen fun env' hframe => ?_
      refine matchPats_binds S es env' vs hs.2 hnd₂ fun x hx => ?_
      rw [hframe x fun hx' => hdisj x hx' x hx rfl]
      exact hfree x (List.mem_append_right _ hx)

end

/-! ## What its premise accepts -/

/-- The sizes of tuples that `match_pattern` takes apart. -/
def takenApart (n : ℕ) : Bool := n == 0 || n == 2 || n == 3 || n == 4

mutual

/-- What a pattern says inside a tuple that is only compared: the term it was translated to. -/
def verbatim : Expr → Shape
  | .atom _ a => .atom a
  | .integer _ i => .int i
  | .var _ _ => .atom "_"
  | .nil _ => .nil
  | .cons _ h t => .cons (verbatim h) (verbatim t)
  | .tuple _ es => .tuple (verbatims es)
  | .match _ p _ => verbatim p
  | _ => .atom "pon_complex"

/-- Element by element. -/
def verbatims : List Expr → List Shape
  | [] => []
  | e :: es => verbatim e :: verbatims es

end

mutual

/-- What `match_pattern` reads from the translation of a pattern. -/
def reading : Expr → Shape
  | .integer _ i => .int i
  | .nil _ => .nil
  | .cons _ h t => .cons (reading h) (reading t)
  | .tuple _ es => .tuple (if takenApart es.length then readings es else verbatims es)
  | .match _ p _ => reading p
  | _ => .any

/-- Element by element. -/
def readings : List Expr → List Shape
  | [] => []
  | e :: es => reading e :: readings es

end

section Terms

theorem patTerm_cons (l : ℕ) (h t : Expr) :
    patTerm (.cons l h t) = .cons (patTerm h) (patTerm t) := by
  have hliteral : literal (patToTerm (.cons l h t)) = some (.cons (patTerm h) (patTerm t)) := by
    simp only [patToTerm, literal, literal_patToTerm, Option.bind_some, Option.map_some]
  rw [patTerm, hliteral, Option.getD_some]

theorem literals_patsToTerms (es : List Expr) :
    literals (patsToTerms es) = some (es.map patTerm) := by
  induction es with
  | nil => rfl
  | cons e es ih => simp [patsToTerms, literals, literal_patToTerm, ih]

theorem patTerm_tuple (l : ℕ) (es : List Expr) :
    patTerm (.tuple l es) = .tuple (es.map patTerm) := by
  simp [patTerm, patToTerm, literal, literals_patsToTerms]

theorem patTerm_match (l : ℕ) (p q : Expr) : patTerm (.match l p q) = patTerm p := by
  simp [patTerm, patToTerm]

end Terms

mutual

theorem verbatim_covers (e : Expr) (v : Term) (hs : simplePat e = true) :
    (verbatim e).covers v = decide (v = patTerm e) := by
  cases e with
  | atom l a => rfl
  | integer l i => rfl
  | var l x => rfl
  | nil l => rfl
  | cons l h t =>
    rw [simplePat, Bool.and_eq_true] at hs
    rw [patTerm_cons]
    cases v with
    | cons v w =>
      rw [verbatim, Shape.covers, verbatim_covers h v hs.1, verbatim_covers t w hs.2]
      simp
    | _ => simp [verbatim, Shape.covers]
  | tuple l es =>
    rw [simplePat] at hs
    rw [patTerm_tuple]
    cases v with
    | tuple vs =>
      rw [verbatim, Shape.covers, verbatims_covers es vs hs]
      simp
    | _ => simp [verbatim, Shape.covers]
  | «match» l p q =>
    rw [simplePat, Bool.and_eq_true] at hs
    rw [patTerm_match, verbatim]
    exact verbatim_covers p v hs.1
  | _ => cases hs

theorem verbatims_covers (es : List Expr) (vs : List Term) (hs : simplePats es = true) :
    Shape.coversAll (verbatims es) vs = decide (vs = es.map patTerm) := by
  cases es with
  | nil => cases vs <;> rfl
  | cons e es =>
    rw [simplePats, Bool.and_eq_true] at hs
    cases vs with
    | nil => rfl
    | cons v vs =>
      rw [verbatims, Shape.coversAll, verbatim_covers e v hs.1, verbatims_covers es vs hs.2]
      simp

end

mutual

/-- The premise accepts its own term, as `match_pattern` asks first. -/
theorem reading_covers_self (e : Expr) (hs : simplePat e = true) :
    (reading e).covers (patTerm e) = true := by
  cases e with
  | atom l a => rfl
  | integer l i => exact decide_eq_true rfl
  | var l x => rfl
  | nil l => exact decide_eq_true rfl
  | cons l h t =>
    rw [simplePat, Bool.and_eq_true] at hs
    rw [patTerm_cons, reading, Shape.covers, reading_covers_self h hs.1,
      reading_covers_self t hs.2]
    rfl
  | tuple l es =>
    rw [simplePat] at hs
    rw [patTerm_tuple, reading, Shape.covers]
    split
    · exact readings_cover_self es hs
    · rw [verbatims_covers es _ hs]
      exact decide_eq_true rfl
  | «match» l p q =>
    rw [simplePat, Bool.and_eq_true] at hs
    rw [patTerm_match, reading]
    exact reading_covers_self p hs.1
  | _ => cases hs

theorem readings_cover_self (es : List Expr) (hs : simplePats es = true) :
    Shape.coversAll (readings es) (es.map patTerm) = true := by
  cases es with
  | nil => rfl
  | cons e es =>
    rw [simplePats, Bool.and_eq_true] at hs
    rw [readings, List.map_cons, Shape.coversAll, reading_covers_self e hs.1,
      readings_cover_self es hs.2]
    rfl

end

/-! What `match_pattern` does, clause by clause. -/

theorem matchPattern_int (i : ℤ) (v : Term) : matchPattern (.int i) v = decide (v = .int i) := by
  rw [matchPattern]
  split
  · next heq => rw [← heq, decide_eq_true rfl]
  · next hne => rw [decide_eq_false (Ne.symm hne)]

theorem matchPattern_nil (v : Term) : matchPattern .nil v = decide (v = .nil) := by
  by_cases hv : v = .nil
  · rw [hv, matchPattern_self, decide_eq_true rfl]
  · rw [matchPattern, if_neg (Ne.symm hv), decide_eq_false hv, decide_eq_false (Ne.symm hv)]
    all_goals simp_all

theorem matchPattern_cons (p₁ p₂ t₁ t₂ : Term) :
    matchPattern (.cons p₁ p₂) (.cons t₁ t₂) = (matchPattern p₁ t₁ && matchPattern p₂ t₂) := by
  rw [matchPattern]
  split
  · next heq =>
    obtain ⟨rfl, rfl⟩ := Term.cons.inj heq
    rw [matchPattern_self, matchPattern_self]
    rfl
  · rfl

/-- What is neither equal nor of the same kind does not match. -/
theorem matchPattern_cons_ne (p₁ p₂ v : Term) (hv : ∀ t₁ t₂, v ≠ .cons t₁ t₂) :
    matchPattern (.cons p₁ p₂) v = false := by
  rw [matchPattern, if_neg (Ne.symm (hv p₁ p₂)), decide_eq_false (Ne.symm (hv p₁ p₂))]
  all_goals simp_all

theorem matchPattern_pair (a b v w : Term) :
    matchPattern (.tuple [a, b]) (.tuple [v, w]) = (matchPattern a v && matchPattern b w) := by
  rw [matchPattern]
  split
  · next heq =>
    simp only [Term.tuple.injEq, List.cons.injEq, and_true] at heq
    obtain ⟨rfl, rfl⟩ := heq
    simp only [matchPattern_self, Bool.and_self]
  · rfl

theorem matchPattern_triple (a b c v w x : Term) :
    matchPattern (.tuple [a, b, c]) (.tuple [v, w, x])
      = (matchPattern a v && matchPattern b w && matchPattern c x) := by
  rw [matchPattern]
  split
  · next heq =>
    simp only [Term.tuple.injEq, List.cons.injEq, and_true] at heq
    obtain ⟨rfl, rfl, rfl⟩ := heq
    simp only [matchPattern_self, Bool.and_self]
  · rfl

theorem matchPattern_quadruple (a b c d v w x y : Term) :
    matchPattern (.tuple [a, b, c, d]) (.tuple [v, w, x, y])
      = (matchPattern a v && matchPattern b w && matchPattern c x && matchPattern d y) := by
  rw [matchPattern]
  split
  · next heq =>
    simp only [Term.tuple.injEq, List.cons.injEq, and_true] at heq
    obtain ⟨rfl, rfl, rfl, rfl⟩ := heq
    simp only [matchPattern_self, Bool.and_self]
  · rfl

/-- A tuple that is not taken apart is compared. -/
theorem matchPattern_compared (ps : List Term) (v : Term)
    (h : takenApart ps.length = false ∨ ∀ ts, v = .tuple ts → ts.length ≠ ps.length) :
    matchPattern (.tuple ps) v = decide (v = .tuple ps) := by
  by_cases hv : v = .tuple ps
  · rw [hv, matchPattern_self, decide_eq_true rfl]
  · rw [matchPattern, if_neg (Ne.symm hv), decide_eq_false hv, decide_eq_false (Ne.symm hv)]
    all_goals
      intros
      simp_all [takenApart]

/-- A tuple that is taken apart matches element by element. -/
theorem matchPattern_takenApart (ps ts : List Term) (h : takenApart ps.length = true)
    (hlen : ts.length = ps.length) : matchPattern (.tuple ps) (.tuple ts)
      = (ps.zip ts).all fun x => matchPattern x.1 x.2 := by
  rcases ps with _ | ⟨a, _ | ⟨b, _ | ⟨c, _ | ⟨d, _ | ⟨x, ps⟩⟩⟩⟩⟩
  · obtain rfl := List.eq_nil_of_length_eq_zero hlen
    exact matchPattern_self _
  · cases h
  · obtain ⟨v, w, rfl⟩ := List.length_eq_two.mp hlen
    simp [matchPattern_pair]
  · obtain ⟨v, w, x, rfl⟩ := List.length_eq_three.mp hlen
    simp [matchPattern_triple, Bool.and_assoc]
  · obtain ⟨v, ts, rfl⟩ := List.exists_cons_of_length_eq_add_one hlen
    obtain ⟨w, x, y, rfl⟩ := List.length_eq_three.mp (Nat.succ.inj hlen)
    simp [matchPattern_quadruple, Bool.and_assoc]
  · simp [takenApart] at h

theorem coversAll_length {ss : List Shape} {vs : List Term} (h : Shape.coversAll ss vs = true) :
    vs.length = ss.length := by
  induction ss generalizing vs with
  | nil =>
    cases vs with
    | nil => rfl
    | cons v vs => cases h
  | cons s ss ih =>
    cases vs with
    | nil => cases h
    | cons v vs =>
      rw [Shape.coversAll, Bool.and_eq_true] at h
      rw [List.length_cons, List.length_cons, ih h.2]

theorem readings_length (es : List Expr) : (readings es).length = es.length := by
  induction es with
  | nil => rfl
  | cons e es ih => rw [readings, List.length_cons, ih, List.length_cons]

mutual

/-- **The premise of a pattern accepts the reading** of it. -/
theorem matchPattern_eq (e : Expr) (v : Term) (hs : simplePat e = true) :
    matchPattern (patTerm e) v = (reading e).covers v := by
  cases e with
  | atom l a => exact matchPattern_atom a v
  | integer l i => exact matchPattern_int i v
  | var l x => exact matchPattern_atom "_" v
  | nil l => exact matchPattern_nil v
  | cons l h t =>
    rw [simplePat, Bool.and_eq_true] at hs
    rw [patTerm_cons, reading]
    cases v with
    | cons v w =>
      rw [matchPattern_cons, matchPattern_eq h v hs.1, matchPattern_eq t w hs.2, Shape.covers]
    | _ => exact matchPattern_cons_ne _ _ _ fun _ _ => Term.noConfusion
  | tuple l es =>
    rw [simplePat] at hs
    rw [patTerm_tuple, reading]
    cases v with
    | tuple vs =>
      rw [Shape.covers]
      by_cases hparts : takenApart es.length = true
      · rw [if_pos hparts]
        by_cases hlen : vs.length = es.length
        · rw [matchPatterns_eq es vs hs hlen]
          exact matchPattern_takenApart _ vs (by rwa [List.length_map]) (by rwa [List.length_map])
        · -- another number of elements: compared, and different
          have hcovers : Shape.coversAll (readings es) vs = false := Bool.eq_false_iff.mpr fun hc =>
            hlen ((coversAll_length hc).trans (readings_length es))
          have hne : Term.tuple vs ≠ .tuple (es.map patTerm) := fun he =>
            hlen (by rw [Term.tuple.inj he, List.length_map])
          rw [hcovers, matchPattern_compared _ _ (Or.inr ?_), decide_eq_false hne]
          rintro ts he
          rwa [← Term.tuple.inj he, List.length_map]
      · rw [if_neg hparts, verbatims_covers es vs hs, matchPattern_compared _ _ (Or.inl ?_)]
        · exact decide_eq_decide.mpr ⟨Term.tuple.inj, congrArg Term.tuple⟩
        · rw [List.length_map]
          exact Bool.eq_false_iff.mpr hparts
    | _ =>
      rw [Shape.covers, matchPattern_compared _ _ (Or.inr fun _ => Term.noConfusion)]
      · exact decide_eq_false Term.noConfusion
      · exact fun _ => Term.noConfusion
  | «match» l p q =>
    rw [simplePat, Bool.and_eq_true] at hs
    rw [patTerm_match, reading]
    exact matchPattern_eq p v hs.1
  | _ => cases hs

theorem matchPatterns_eq (es : List Expr) (vs : List Term) (hs : simplePats es = true)
    (hlen : vs.length = es.length) : Shape.coversAll (readings es) vs
      = ((es.map patTerm).zip vs).all fun x => matchPattern x.1 x.2 := by
  cases es with
  | nil =>
    obtain rfl := List.eq_nil_of_length_eq_zero hlen
    rfl
  | cons e es =>
    rw [simplePats, Bool.and_eq_true] at hs
    cases vs with
    | nil => cases hlen
    | cons v vs =>
      rw [readings, Shape.coversAll, ← matchPattern_eq e v hs.1,
        matchPatterns_eq es vs hs.2 (Nat.succ.inj hlen)]
      rfl

end

/-! ## When the two agree -/

/-- Premise and pattern agree on a message. -/
def Agrees (S : Sem) (e : Expr) (msg : Term) : Prop :=
  matchPattern (patTerm e) msg = true ↔ (matchPat S e noBindings msg).isSome = true

/-- **Premises against patterns.** The premise of a pattern agrees with it on every message
exactly if what `match_pattern` reads from it is what the pattern, its aliases merged, says. -/
theorem agrees_iff (S : Sem) (e : Expr) (hs : simplePat e = true) (hnd : (patVars e).Nodup) :
    (∀ msg, Agrees S e msg) ↔ merged e = some (reading e) := by
  have hpat : ∀ msg, (matchPat S e noBindings msg).isSome = (merged e).any (·.covers msg) :=
    fun msg => (matchPat_binds S e noBindings msg hs hnd fun _ _ => rfl).isSome
  have hagrees : ∀ msg, Agrees S e msg ↔ (reading e).covers msg = (merged e).any (·.covers msg) := by
    intro msg
    rw [Agrees, matchPattern_eq e msg hs, hpat]
    exact Bool.eq_iff_iff.symm
  simp only [hagrees]
  constructor
  · intro h
    cases hm : merged e with
    | none =>
      have hself := h (patTerm e)
      rw [hm, reading_covers_self e hs] at hself
      cases hself
    | some s =>
      rw [hm] at h
      exact congrArg some (Shape.ext_covers s (reading e) fun v => (h v).symm)
  · intro h msg
    rw [h]
    rfl

mutual

/-- There is no alias in the pattern. -/
def noAlias : Expr → Bool
  | .cons _ h t => noAlias h && noAlias t
  | .tuple _ es => noAliases es
  | .match _ _ _ => false
  | _ => true

/-- In none of them. -/
def noAliases : List Expr → Bool
  | [] => true
  | e :: es => noAlias e && noAliases es

end

mutual

/-- No variable in the pattern. -/
def ground : Expr → Bool
  | .var _ _ => false
  | .cons _ h t => ground h && ground t
  | .tuple _ es => grounds es
  | _ => true

/-- In none of them. -/
def grounds : List Expr → Bool
  | [] => true
  | e :: es => ground e && grounds es

end

mutual

/-- No atom outside the tuples that are only compared, and no variable inside one. -/
def readable : Expr → Bool
  | .atom _ _ => false
  | .cons _ h t => readable h && readable t
  | .tuple _ es => if takenApart es.length then readables es else grounds es
  | _ => true

/-- All of them. -/
def readables : List Expr → Bool
  | [] => true
  | e :: es => readable e && readables es

end

mutual

theorem merged_verbatim_iff (e : Expr) (hs : simplePat e = true) (ha : noAlias e = true) :
    merged e = some (verbatim e) ↔ ground e = true := by
  cases e with
  | atom l a => simp [merged, verbatim, ground]
  | integer l i => simp [merged, verbatim, ground]
  | var l x => simp [merged, verbatim, ground]
  | nil l => simp [merged, verbatim, ground]
  | cons l h t =>
    rw [simplePat, Bool.and_eq_true] at hs
    rw [noAlias, Bool.and_eq_true] at ha
    rw [ground, Bool.and_eq_true, ← merged_verbatim_iff h hs.1 ha.1,
      ← merged_verbatim_iff t hs.2 ha.2, merged, verbatim]
    cases merged h <;> cases merged t <;> simp
  | tuple l es =>
    rw [simplePat] at hs
    rw [noAlias] at ha
    rw [ground, ← mergedAll_verbatims_iff es hs ha, merged, verbatim]
    cases mergedAll es <;> simp
  | «match» l p q => cases ha
  | _ => cases hs

theorem mergedAll_verbatims_iff (es : List Expr) (hs : simplePats es = true)
    (ha : noAliases es = true) : mergedAll es = some (verbatims es) ↔ grounds es = true := by
  cases es with
  | nil => simp [mergedAll, verbatims, grounds]
  | cons e es =>
    rw [simplePats, Bool.and_eq_true] at hs
    rw [noAliases, Bool.and_eq_true] at ha
    rw [grounds, Bool.and_eq_true, ← merged_verbatim_iff e hs.1 ha.1,
      ← mergedAll_verbatims_iff es hs.2 ha.2, mergedAll, verbatims]
    cases merged e <;> cases mergedAll es <;> simp

end

mutual

/-- Without aliases the condition is on the atoms and the variables alone. -/
theorem merged_reading_iff (e : Expr) (hs : simplePat e = true) (ha : noAlias e = true) :
    merged e = some (reading e) ↔ readable e = true := by
  cases e with
  | atom l a => simp [merged, reading, readable]
  | integer l i => simp [merged, reading, readable]
  | var l x => simp [merged, reading, readable]
  | nil l => simp [merged, reading, readable]
  | cons l h t =>
    rw [simplePat, Bool.and_eq_true] at hs
    rw [noAlias, Bool.and_eq_true] at ha
    rw [readable, Bool.and_eq_true, ← merged_reading_iff h hs.1 ha.1,
      ← merged_reading_iff t hs.2 ha.2, merged, reading]
    cases merged h <;> cases merged t <;> simp
  | tuple l es =>
    rw [simplePat] at hs
    rw [noAlias] at ha
    rw [readable, merged, reading]
    split
    · rw [← mergedAll_readings_iff es hs ha]
      cases mergedAll es <;> simp
    · rw [← mergedAll_verbatims_iff es hs ha]
      cases mergedAll es <;> simp
  | «match» l p q => cases ha
  | _ => cases hs

theorem mergedAll_readings_iff (es : List Expr) (hs : simplePats es = true)
    (ha : noAliases es = true) : mergedAll es = some (readings es) ↔ readables es = true := by
  cases es with
  | nil => simp [mergedAll, readings, readables]
  | cons e es =>
    rw [simplePats, Bool.and_eq_true] at hs
    rw [noAliases, Bool.and_eq_true] at ha
    rw [readables, Bool.and_eq_true, ← merged_reading_iff e hs.1 ha.1,
      ← mergedAll_readings_iff es hs.2 ha.2, mergedAll, readings]
    cases merged e <;> cases mergedAll es <;> simp

end

/-! ## Three patterns -/

/-- `{X, [1 | Y] = Z}` and its premise agree. -/
theorem openPair_agrees : Agrees literalSem
    (.tuple 1 [.var 1 "X", .match 1 (.cons 1 (.integer 1 1) (.var 1 "Y")) (.var 1 "Z")])
    (.tuple [.int 7, .int 1]) :=
  (agrees_iff literalSem _ rfl (by decide)).mpr rfl _

/-- `ping` does not match the message 1, but its premise does; `{X}` matches `{1}`, but its
premise does not. -/
theorem premises_disagree :
    ¬ Agrees literalSem (.atom 1 "ping") (.int 1) ∧
      ¬ Agrees literalSem (.tuple 1 [.var 1 "X"]) (.tuple [.int 1]) := by
  constructor
  · intro h
    have hmatch := h.mp (matchPattern_atom "ping" (.int 1))
    cases hmatch
  · intro h
    have hpremise := h.mpr rfl
    rw [matchPattern_eq _ _ rfl] at hpremise
    cases hpremise

end PonBeam.Receive
