import Smtrat.VS.SubstituteExact

/-!
# Splitting sums of squares and products

The disjunction that is left when the sums of squares are split stands for the constraints as they are
judged.  Every constraint is judged finitely often since the squares have smaller degrees.
-/

namespace Smtrat.VS

open SparsePoly List

universe u

variable {V : Type u}

/-! ## Removals -/

/-- The elements behind the position are those behind the removed one, in another order. -/
theorem exists_removeAt_append {A : Type u} (l₁ : List A) (a : A) (l₂ : List A) :
    ∃ rest, removeAt (l₁ ++ a :: l₂) l₁.length = l₁ ++ rest ∧ rest.Perm l₂ := by
  rcases eq_nil_or_concat' l₂ with rfl | ⟨init, b, rfl⟩
  · exact ⟨[], by simp [removeAt], .refl _⟩
  · refine ⟨b :: init, ?_, (perm_append_singleton b init).symm⟩
    have hlast : (l₁ ++ a :: (init ++ [b])).getLast? = some b := by
      rw [← cons_append, ← append_assoc, getLast?_concat]
    rw [removeAt, hlast]
    simp only
    rw [set_append_right _ _ le_rfl, Nat.sub_self, set_cons_zero, ← cons_append,
      ← append_assoc, dropLast_concat]

variable [DecidableEq V] {lib : PolynomialLibrary V} {α : V → ℝ}

/-! ## Termination -/

/-- The greatest sum of the exponents of a term. -/
def totalDegree (p : Poly V ℚ) : ℕ := (p.map fun t => (t.monomial.map Prod.snd).sum).foldr max 0

/-- A polynomial that is decomposed into several squares has a greater degree than each of them, and the
pool stores no polynomial of a greater degree than the one it is given. -/
structure LowersDegree (lib : PolynomialLibrary V) : Prop where
  square_lt : ∀ p, 1 < (lib.sosDecomposition p).length → ∀ s ∈ lib.sosDecomposition p,
    totalDegree s.2 < totalDegree p
  stored_le : ∀ p r k, lib.constraint p r = .proper k → totalDegree k.lhs ≤ totalDegree p

omit [DecidableEq V] in
theorem totalDegree_neg (p : Poly V ℚ) : totalDegree (Poly.neg p) = totalDegree p := by
  rw [totalDegree, totalDegree, Poly.neg, map_map]
  rfl

def ConstraintT.degree : ConstraintT V → ℕ
  | constant _ => 0
  | proper k => totalDegree k.lhs

variable {squares : List (Poly V ℚ)}

omit [DecidableEq V] in
/-- A constraint is replaced by nothing or by all squares. -/
theorem judgeSum_replace {relation : Relation} {lcoeffNeg constantTerm : Bool}
    {squares' : List (Poly V ℚ)}
    (h : judgeSum relation lcoeffNeg constantTerm squares = .replace squares') :
    squares' = [] ∨ squares' = squares := by
  cases relation <;> cases lcoeffNeg <;> cases constantTerm <;> cases h <;> simp

variable {c : ConstraintT V}

/-- The equations that replace a constraint have smaller degrees. -/
theorem LowersDegree.replace_lt (h : LowersDegree lib)
    (hjudge : judge lib c = .replace squares) {q : Poly V ℚ} (hq : q ∈ squares) :
    (lib.constraint q .eq).degree < c.degree := by
  cases c with
  | constant b => cases hjudge
  | proper k =>
    rw [judge] at hjudge
    split_ifs at hjudge with hlen
    rcases judgeSum_replace hjudge with rfl | rfl
    · cases hq
    obtain ⟨s, hs, rfl⟩ := mem_map.mp hq
    have hlt : totalDegree s.2 < totalDegree k.lhs := by
      rw [decomposition] at hs hlen
      refine (h.square_lt _ (not_le.mp hlen) s hs).trans_le ?_
      split_ifs
      · exact (totalDegree_neg k.lhs).le
      · exact le_rfl
    cases hstor : lib.constraint s.2 .eq with
    | constant b => exact Nat.zero_lt_of_lt hlt
    | proper k' => exact (h.stored_le _ _ _ hstor).trans_lt hlt

/-- The number of judgements a constraint causes, with those of its squares up to a depth. -/
def weight (lib : PolynomialLibrary V) : ℕ → ConstraintT V → ℕ
  | 0, _ => 1
  | n + 1, c =>
    match judge lib c with
    | .replace squares => 1 + (squares.map fun q => weight lib n (lib.constraint q .eq)).sum
    | _ => 1

theorem weight_pos (n : ℕ) (c : ConstraintT V) : 0 < weight lib n c := by
  cases n with
  | zero => exact zero_lt_one
  | succ n =>
    rw [weight]
    split
    · exact Nat.add_pos_left zero_lt_one _
    · exact zero_lt_one

variable {n : ℕ}

/-- From the degree on the depth does not matter. -/
theorem LowersDegree.weight_succ (h : LowersDegree lib) (hc : c.degree ≤ n) :
    weight lib (n + 1) c = weight lib n c := by
  induction n generalizing c with
  | zero =>
    rw [weight, weight]
    split
    next squares hjudge =>
      have hnil : squares = [] := eq_nil_iff_forall_not_mem.mpr fun q hq =>
        absurd ((h.replace_lt hjudge hq).trans_le hc) (Nat.not_lt_zero _)
      rw [hnil, map_nil, sum_nil, Nat.add_zero]
    next => rfl
  | succ n ih =>
    rw [weight, weight]
    split
    next squares hjudge =>
      have hsum : ∀ q ∈ squares, weight lib (n + 1) (lib.constraint q .eq) =
          weight lib n (lib.constraint q .eq) :=
        fun q hq => ih (Nat.le_of_lt_succ ((h.replace_lt hjudge hq).trans_le hc))
      rw [map_congr_left hsum]
    next => rfl

theorem LowersDegree.weight_replace (h : LowersDegree lib) (hc : c.degree ≤ n)
    (hjudge : judge lib c = .replace squares) :
    weight lib n c = 1 + ((squares.map (lib.constraint · .eq)).map (weight lib n)).sum := by
  rw [← h.weight_succ hc, weight, hjudge, map_map]
  rfl

variable {fuel : ℕ}

/-- With as many steps as judgements the loop over a conjunction ends. -/
theorem LowersDegree.exists_splitConjunction (h : LowersDegree lib) {N : ℕ}
    {l₁ l₂ : List (ConstraintT V)} (hdeg : ∀ c ∈ l₂, c.degree ≤ N)
    (hfuel : (l₂.map (weight lib N)).sum < fuel) :
    ∃ r, splitConjunction lib fuel (l₁ ++ l₂) l₁.length = some r := by
  induction fuel generalizing l₁ l₂ with
  | zero => exact absurd hfuel (Nat.not_lt_zero _)
  | succ fuel ih =>
    cases l₂ with
    | nil => exact ⟨some (l₁ ++ []), by simp [splitConjunction]⟩
    | cons c l₂ =>
      have hget : (l₁ ++ c :: l₂)[l₁.length]? = some c := by simp
      obtain ⟨hc, hl₂⟩ := forall_mem_cons.mp hdeg
      rw [map_cons, sum_cons] at hfuel
      rw [splitConjunction, hget]
      simp only
      cases hjudge : judge lib c with
      | keep =>
        have hpos : 0 < weight lib N c := weight_pos N c
        have hstep : ∃ r, splitConjunction lib fuel (l₁ ++ [c] ++ l₂) (l₁ ++ [c]).length = some r :=
          ih hl₂ (by omega)
        rwa [append_assoc, length_append] at hstep
      | invalid => exact ⟨none, rfl⟩
      | replace squares =>
        obtain ⟨rest, hrem, hperm⟩ := exists_removeAt_append l₁ c l₂
        simp only [hrem, append_assoc]
        apply ih
        · intro d hd
          rcases mem_append.mp hd with hd | hd
          · exact hl₂ d (hperm.mem_iff.mp hd)
          · obtain ⟨q, hq, rfl⟩ := mem_map.mp hd
            exact (h.replace_lt hjudge hq).le.trans hc
        · rw [h.weight_replace hc hjudge] at hfuel
          rw [map_append, sum_append, (hperm.map _).sum_eq]
          omega

/-- For every disjunction some number of steps is enough. -/
theorem LowersDegree.exists_splitSosDecompositions (h : LowersDegree lib)
    (d : DisjunctionOfConstraintConjunctions V) :
    ∃ N, ∀ fuel ≥ N, ∃ d', splitSosDecompositions lib fuel d.length d 0 = some d' := by
  obtain ⟨N, hN⟩ : ∃ N, ∀ conj ∈ d, ∀ c ∈ conj, c.degree ≤ N := by
    refine ⟨((d.flatten).map ConstraintT.degree).sum, fun conj hconj c hc => ?_⟩
    exact single_le_sum (fun _ _ => Nat.zero_le _) _
      (mem_map_of_mem (mem_flatten.mpr ⟨conj, hconj, hc⟩))
  have hloop : ∀ (fuel : ℕ) (l₁ l₂ : DisjunctionOfConstraintConjunctions V) (n : ℕ), n = l₂.length →
      (∀ conj ∈ l₂, (∀ c ∈ conj, c.degree ≤ N) ∧ (conj.map (weight lib N)).sum < fuel) →
      ∃ d', splitSosDecompositions lib fuel n (l₁ ++ l₂) l₁.length = some d' := by
    intro fuel l₁ l₂ n hn hall
    induction n generalizing l₁ l₂ with
    | zero => exact ⟨_, rfl⟩
    | succ n ih =>
      cases l₂ with
      | nil => exact absurd hn (Nat.succ_ne_zero n)
      | cons conj l₂ =>
        have hget : (l₁ ++ conj :: l₂)[l₁.length]? = some conj := by simp
        obtain ⟨⟨hdeg, hfuel⟩, hl₂⟩ := forall_mem_cons.mp hall
        have hlen : n = l₂.length := Nat.succ.inj hn
        rw [splitSosDecompositions, hget]
        simp only
        obtain ⟨r, hr⟩ : ∃ r, splitConjunction lib fuel ([] ++ conj) 0 = some r :=
          h.exists_splitConjunction hdeg hfuel
        rw [nil_append] at hr
        rw [hr]
        cases r with
        | none =>
          obtain ⟨rest, hrem, hperm⟩ := exists_removeAt_append l₁ conj l₂
          simp only [hrem]
          exact ih l₁ rest (hlen.trans hperm.length_eq.symm)
            fun conj hconj => hl₂ conj (hperm.mem_iff.mp hconj)
        | some cc =>
          have hset : (l₁ ++ conj :: l₂).set l₁.length cc = l₁ ++ [cc] ++ l₂ := by
            rw [set_append_right _ _ le_rfl, Nat.sub_self, set_cons_zero]
            simp
          have hstep := ih (l₁ ++ [cc]) l₂ hlen hl₂
          rw [length_append] at hstep
          simp only [hset]
          exact hstep
  refine ⟨((d.map fun conj => (conj.map (weight lib N)).sum).sum) + 1, fun fuel hfuel => ?_⟩
  refine hloop fuel [] d d.length rfl fun conj hconj => ⟨hN conj hconj, ?_⟩
  have hle : (conj.map (weight lib N)).sum ≤ (d.map fun conj => (conj.map (weight lib N)).sum).sum :=
    single_le_sum (fun _ _ => Nat.zero_le _) _ (mem_map_of_mem hconj)
  omega

/-! ## What is left of a disjunction -/

variable (lib α) in
/-- The constraint holds if it is judged by its constant term. -/
inductive Accepts : ConstraintT V → Prop
  | keep {c : ConstraintT V} : judge lib c = .keep → c.Sat α → Accepts c
  | replace {c : ConstraintT V} {squares : List (Poly V ℚ)} : judge lib c = .replace squares →
      (∀ q ∈ squares, Accepts (lib.constraint q .eq)) → Accepts c

theorem accepts_keep (hjudge : judge lib c = .keep) : Accepts lib α c ↔ c.Sat α := by
  refine ⟨fun h => ?_, .keep hjudge⟩
  cases h with
  | keep _ hsat => exact hsat
  | replace hrepl _ => exact nomatch hjudge.symm.trans hrepl

theorem not_accepts_invalid (hjudge : judge lib c = .invalid) : ¬ Accepts lib α c := by
  intro h
  cases h with
  | keep hkeep _ => exact nomatch hjudge.symm.trans hkeep
  | replace hrepl _ => exact nomatch hjudge.symm.trans hrepl

theorem accepts_replace (hjudge : judge lib c = .replace squares) :
    Accepts lib α c ↔ ∀ q ∈ squares, Accepts lib α (lib.constraint q .eq) := by
  refine ⟨fun h => ?_, .replace hjudge⟩
  cases h with
  | keep hkeep _ => exact nomatch hjudge.symm.trans hkeep
  | replace hrepl hall =>
    cases hjudge.symm.trans hrepl
    exact hall

/-- One of the conjunctions is true if the constraints are judged by their constant terms. -/
def HoldsAsJudged (lib : PolynomialLibrary V) (α : V → ℝ) (d : DisjunctionOfConstraintConjunctions V) :
    Prop := ∃ conj ∈ d, ∀ c ∈ conj, Accepts lib α c

theorem holdsAsJudged_cons (conj : List (ConstraintT V)) (d : DisjunctionOfConstraintConjunctions V) :
    HoldsAsJudged lib α (conj :: d) ↔ (∀ c ∈ conj, Accepts lib α c) ∨ HoldsAsJudged lib α d := by
  simp [HoldsAsJudged]

/-- The outcome for a conjunction whose first part is kept stands for what is accepted. -/
theorem splitConjunction_accepts {l₁ l₂ : List (ConstraintT V)}
    (hkept : ∀ c ∈ l₁, judge lib c = .keep) {r : Option (List (ConstraintT V))}
    (h : splitConjunction lib fuel (l₁ ++ l₂) l₁.length = some r) :
    (∃ cc, r = some cc ∧ ∀ c ∈ cc, c.Sat α) ↔ ∀ c ∈ l₁ ++ l₂, Accepts lib α c := by
  induction fuel generalizing l₁ l₂ with
  | zero => cases h
  | succ fuel ih =>
    cases l₂ with
    | nil =>
      have hget : (l₁ ++ [])[l₁.length]? = none := by simp
      rw [splitConjunction, hget] at h
      cases h
      simp only [append_nil, Option.some.injEq, exists_eq_left']
      exact forall₂_congr fun c hc => (accepts_keep (hkept c hc)).symm
    | cons c l₂ =>
      have hget : (l₁ ++ c :: l₂)[l₁.length]? = some c := by simp
      rw [splitConjunction, hget] at h
      simp only at h
      cases hjudge : judge lib c with
      | keep =>
        simp only [hjudge] at h
        have hkept' : ∀ d ∈ l₁ ++ [c], judge lib d = .keep :=
          forall_mem_append.mpr ⟨hkept, forall_mem_singleton.mpr hjudge⟩
        have hsplit : splitConjunction lib fuel (l₁ ++ [c] ++ l₂) (l₁ ++ [c]).length = some r := by
          simpa using h
        rw [ih hkept' hsplit, append_assoc, singleton_append]
      | invalid =>
        simp only [hjudge] at h
        cases h
        refine iff_of_false ?_ fun hall => not_accepts_invalid hjudge (hall c (by simp))
        rintro ⟨cc, hcc, -⟩
        cases hcc
      | replace squares =>
        obtain ⟨rest, hrem, hperm⟩ := exists_removeAt_append l₁ c l₂
        simp only [hjudge, hrem, append_assoc] at h
        rw [ih hkept h]
        simp only [forall_mem_append, forall_mem_cons, forall_mem_map, accepts_replace hjudge]
        have hrest : (∀ d ∈ rest, Accepts lib α d) ↔ ∀ d ∈ l₂, Accepts lib α d :=
          forall_congr' fun d => by rw [hperm.mem_iff]
        rw [hrest]
        tauto

/-- What is left of the disjunction stands for the constraints as they are judged. -/
theorem splitSosDecompositions_accepts {l₁ l₂ d' : DisjunctionOfConstraintConjunctions V}
    (hn : n = l₂.length) (h : splitSosDecompositions lib fuel n (l₁ ++ l₂) l₁.length = some d') :
    Holds α d' ↔ Holds α l₁ ∨ HoldsAsJudged lib α l₂ := by
  induction n generalizing l₁ l₂ with
  | zero =>
    obtain rfl := length_eq_zero_iff.mp hn.symm
    cases h
    simp [HoldsAsJudged]
  | succ n ih =>
    cases l₂ with
    | nil => exact absurd hn (Nat.succ_ne_zero n)
    | cons conj l₂ =>
      have hget : (l₁ ++ conj :: l₂)[l₁.length]? = some conj := by simp
      have hlen : n = l₂.length := Nat.succ.inj hn
      rw [splitSosDecompositions, hget] at h
      simp only at h
      cases hsplit : splitConjunction lib fuel conj 0 with
      | none =>
        rw [hsplit] at h
        cases h
      | some r =>
        have hconj : (∃ cc, r = some cc ∧ ∀ c ∈ cc, c.Sat α) ↔ ∀ c ∈ [] ++ conj, Accepts lib α c :=
          splitConjunction_accepts (forall_mem_nil _) hsplit
        rw [nil_append] at hconj
        rw [hsplit] at h
        rw [holdsAsJudged_cons, ← hconj]
        cases r with
        | none =>
          obtain ⟨rest, hrem, hperm⟩ := exists_removeAt_append l₁ conj l₂
          simp only [hrem] at h
          have hrest : HoldsAsJudged lib α rest ↔ HoldsAsJudged lib α l₂ :=
            exists_congr fun cc => by rw [hperm.mem_iff]
          rw [ih (hlen.trans hperm.length_eq.symm) h, hrest]
          simp
        | some cc =>
          have hset : (l₁ ++ conj :: l₂).set l₁.length cc = l₁ ++ [cc] ++ l₂ := by
            rw [set_append_right _ _ le_rfl, Nat.sub_self, set_cons_zero]
            simp
          simp only [hset] at h
          have hstep : splitSosDecompositions lib fuel n (l₁ ++ [cc] ++ l₂) (l₁ ++ [cc]).length =
              some d' := by rwa [length_append]
          rw [ih hlen hstep, holds_append, holds_cons]
          simp [or_assoc]

/-- At the assignments where a constraint is misjudged, this does not change whether the disjunction
holds. -/
def ExactlyJudged (lib : PolynomialLibrary V) (d : DisjunctionOfConstraintConjunctions V) : Prop :=
  ∀ α, (∃ c, Examined lib d c ∧ Misjudged lib α c) → (HoldsAsJudged lib α d ↔ Holds α d)

section Example

/-- `x0^2 + x1^2` -/
def circle : Poly Nat ℚ := [⟨1, [(0, 2)]⟩, ⟨1, [(1, 2)]⟩]

/-- `x0^2 + 2 x0 + x1^2 + 1` -/
def shiftedCircle : Poly Nat ℚ := [⟨1, [(0, 2)]⟩, ⟨2, [(0, 1)]⟩, ⟨1, [(1, 2)]⟩, ⟨1, []⟩]

/-- Two sums of squares are decomposed. -/
def circleLibrary : PolynomialLibrary Nat :=
  { plainLibrary with
    sosDecomposition := fun p =>
      if p = circle then [(1, [⟨1, [(0, 1)]⟩]), (1, [⟨1, [(1, 1)]⟩])]
      else if p = shiftedCircle then [(1, [⟨1, [(0, 1)]⟩, ⟨1, []⟩]), (1, [⟨1, [(1, 1)]⟩])]
      else []
    sosDecomposition_pos := by
      intro p s hs
      split_ifs at hs <;> simp at hs <;> rcases hs with rfl | rfl <;> exact one_pos
    sosDecomposition_eval := by
      intro p hp α
      split_ifs at hp ⊢ with hcircle hshifted
      · simp [hcircle, circle, Term.eval]
      · simp [hshifted, shiftedCircle, Term.eval]
        ring
      · exact absurd rfl hp }

theorem lowersDegree_circleLibrary : LowersDegree circleLibrary where
  square_lt := by
    intro p hlen s hs
    simp only [circleLibrary] at hlen hs
    split_ifs at hlen hs with hcircle hshifted
    · rw [hcircle]
      simp only [mem_cons, not_mem_nil, or_false] at hs
      rcases hs with rfl | rfl <;> decide
    · rw [hshifted]
      simp only [mem_cons, not_mem_nil, or_false] at hs
      rcases hs with rfl | rfl <;> decide
    · cases hs
  stored_le := by
    intro p r k hk
    simp only [circleLibrary, plainLibrary] at hk
    split_ifs at hk
    cases hk
    exact le_rfl

end Example

end Smtrat.VS
