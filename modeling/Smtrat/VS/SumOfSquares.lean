import Smtrat.VS.SubstituteNormal

/-!
# Splitting sums of squares

A sum of squares is zero if and only if all of its squares are.  A polynomial with a constant term
is taken to be positive then, which fails where the constant term belongs to one of the squares.
-/

namespace Smtrat.VS

open SparsePoly List
open scoped List

universe u

variable {V : Type u} [DecidableEq V] (lib : PolynomialLibrary V) {α : V → ℝ}

/-! ## Sums of squares -/

section Sum

variable {ss : List (ℚ × Poly V ℚ)} (hpos : ∀ s ∈ ss, 0 < s.1)

include hpos

omit [DecidableEq V] in
theorem sum_squares_nonneg : 0 ≤ (ss.map fun s => (s.1 : ℝ) * Poly.eval α s.2 ^ 2).sum := by
  refine sum_nonneg fun a ha => ?_
  obtain ⟨s, hs, rfl⟩ := mem_map.mp ha
  exact mul_nonneg (Rat.cast_nonneg.mpr (hpos s hs).le) (sq_nonneg _)

omit [DecidableEq V] in
theorem sum_squares_eq_zero_iff :
    (ss.map fun s => (s.1 : ℝ) * Poly.eval α s.2 ^ 2).sum = 0 ↔ ∀ s ∈ ss, Poly.eval α s.2 = 0 := by
  induction ss with
  | nil => simp
  | cons s ss ih =>
    obtain ⟨hs, hss⟩ := forall_mem_cons.mp hpos
    have hfst : 0 ≤ (s.1 : ℝ) * Poly.eval α s.2 ^ 2 :=
      mul_nonneg (Rat.cast_nonneg.mpr hs.le) (sq_nonneg _)
    rw [map_cons, sum_cons, forall_mem_cons, ← ih hss,
      add_eq_zero_iff_of_nonneg hfst (sum_squares_nonneg hss), mul_eq_zero,
      or_iff_right (Rat.cast_ne_zero.mpr hs.ne'), pow_eq_zero_iff two_ne_zero]

end Sum

/-- The value of the left-hand side is that of the sum of squares, up to the sign. -/
theorem eval_decomposition {p : Poly V ℚ} (h : 1 < (decomposition lib p).length) (α : V → ℝ) :
    (if lib.lcoeffNegative p then -Poly.eval α p else Poly.eval α p) =
      ((decomposition lib p).map fun s => (s.1 : ℝ) * Poly.eval α s.2 ^ 2).sum := by
  have hne : decomposition lib p ≠ [] := by
    intro hempty
    simp [hempty] at h
  rw [decomposition] at hne ⊢
  rw [← lib.sosDecomposition_eval _ hne α]
  split_ifs <;> simp

theorem decomposition_pos (p : Poly V ℚ) : ∀ s ∈ decomposition lib p, 0 < s.1 :=
  lib.sosDecomposition_pos _

/-! ## Judgements -/

/-- Whether the judgement of the constraint depends on the constant term. -/
def consultsConstantTerm (relation : Relation) (lcoeffNeg : Bool) : Bool :=
  match relation with
  | .eq | .neq => true
  | .leq | .greater => !lcoeffNeg
  | .less | .geq => lcoeffNeg

/-- The constraint has a constant term that is taken to make it nonzero, but it vanishes. -/
def Misjudged (α : V → ℝ) (c : ConstraintT V) : Prop :=
  ∃ k, c = .proper k ∧ 1 < (decomposition lib k.lhs).length ∧
    consultsConstantTerm k.relation (lib.lcoeffNegative k.lhs) ∧ hasConstantTerm k.lhs ∧
    Poly.eval α k.lhs = 0

/-- What a judgement says of a truth value. -/
def Judgement.Correct (α : V → ℝ) (sat : Prop) : Judgement V → Prop
  | .keep => True
  | .invalid => ¬ sat
  | .replace squares => (∀ q ∈ squares, Poly.eval α q = 0) ↔ sat

omit [DecidableEq V] in
/-- The cases are right for a value of the sign that the decomposition gives it. -/
theorem judgeSum_correct {relation : Relation} {lcoeffNeg constantTerm : Bool}
    {squares : List (Poly V ℚ)} {v : ℝ} (hnonneg : 0 ≤ if lcoeffNeg then -v else v)
    (hsqs : (∀ q ∈ squares, Poly.eval α q = 0) ↔ v = 0)
    (hconst : consultsConstantTerm relation lcoeffNeg = true → constantTerm = true → v ≠ 0) :
    (judgeSum relation lcoeffNeg constantTerm squares).Correct α (relation.evaluate v 0) := by
  have hnil : ∀ {p : Prop}, p → ((∀ q ∈ ([] : List (Poly V ℚ)), Poly.eval α q = 0) ↔ p) :=
    fun hp => iff_of_true nofun hp
  cases lcoeffNeg with
  | false =>
    have hv : 0 ≤ v := by simpa using hnonneg
    cases constantTerm with
    | false =>
      cases relation with
      | eq => exact hsqs
      | neq => exact trivial
      | less => exact not_lt.mpr hv
      | leq => exact hsqs.trans ⟨fun h => h.le, fun h => le_antisymm h hv⟩
      | greater => exact trivial
      | geq => exact hnil hv
    | true =>
      cases relation with
      | eq => exact hconst rfl rfl
      | neq => exact hnil (hconst rfl rfl)
      | less => exact not_lt.mpr hv
      | leq => exact fun h => hconst rfl rfl (le_antisymm h hv)
      | greater => exact hnil (lt_of_le_of_ne hv (hconst rfl rfl).symm)
      | geq => exact hnil hv
  | true =>
    have hv : v ≤ 0 := by simpa using hnonneg
    cases constantTerm with
    | false =>
      cases relation with
      | eq => exact hsqs
      | neq => exact trivial
      | less => exact trivial
      | leq => exact hnil hv
      | greater => exact not_lt.mpr hv
      | geq => exact hsqs.trans ⟨fun h => h.ge, fun h => le_antisymm hv h⟩
    | true =>
      cases relation with
      | eq => exact hconst rfl rfl
      | neq => exact hnil (hconst rfl rfl)
      | less => exact hnil (lt_of_le_of_ne hv (hconst rfl rfl))
      | leq => exact hnil hv
      | greater => exact not_lt.mpr hv
      | geq => exact fun h => hconst rfl rfl (le_antisymm hv h)

theorem judge_correct {c : ConstraintT V} (h : ¬ Misjudged lib α c) :
    (judge lib c).Correct α (c.Sat α) := by
  cases c with
  | constant b => exact trivial
  | proper k =>
    rw [judge]
    by_cases hlen : (decomposition lib k.lhs).length ≤ 1
    · rw [if_pos hlen]
      exact trivial
    · have hlen' := not_le.mp hlen
      have heval := eval_decomposition lib hlen' α
      have hzero := sum_squares_eq_zero_iff (α := α) (decomposition_pos lib k.lhs)
      rw [if_neg hlen]
      refine judgeSum_correct ?_ ?_ fun hconsults hterm hz =>
        h ⟨k, rfl, hlen', hconsults, hterm, hz⟩
      · rw [heval]
        exact sum_squares_nonneg (decomposition_pos lib k.lhs)
      · rw [forall_mem_map, ← hzero, ← heval]
        split_ifs <;> simp

/-! ## Conjunctions -/

section RemoveAt

omit [DecidableEq V]

variable {A : Type u}

/-- The element that is removed and the others are a permutation. -/
theorem removeAt_perm {l : List A} {pos : Nat} {a : A} (h : l[pos]? = some a) :
    (a :: removeAt l pos).Perm l := by
  obtain ⟨hlt, rfl⟩ := List.getElem?_eq_some_iff.mp h
  have hne : l ≠ [] := ne_nil_of_length_pos (Nat.zero_lt_of_lt hlt)
  obtain ⟨init, b, rfl⟩ := (eq_nil_or_concat' l).resolve_left hne
  have hrem : removeAt (init ++ [b]) pos = ((init ++ [b]).set pos b).dropLast := by
    simp [removeAt]
  rw [hrem]
  rcases Nat.lt_or_ge pos init.length with hinit | hinit
  · obtain ⟨l₁, l₂, hsplit, -, hset⟩ : ∃ l₁ l₂, init = l₁ ++ init[pos] :: l₂ ∧ l₁.length = pos ∧
        init.set pos b = l₁ ++ b :: l₂ := exists_of_set hinit
    rw [set_append_left _ _ hinit, dropLast_concat, hset, getElem_append_left hinit]
    calc init[pos] :: (l₁ ++ b :: l₂)
      _ ~ init[pos] :: b :: (l₁ ++ l₂) := perm_middle.cons _
      _ ~ b :: init[pos] :: (l₁ ++ l₂) := .swap _ _ _
      _ ~ b :: (l₁ ++ init[pos] :: l₂) := perm_middle.symm.cons _
      _ ~ b :: init := by rw [← hsplit]
      _ ~ init ++ [b] := (perm_append_singleton b init).symm
  · obtain rfl : pos = init.length := by
      rw [length_append, length_singleton] at hlt
      omega
    rw [set_append_right _ _ le_rfl]
    simpa using (perm_append_singleton b init).symm

end RemoveAt

/-- The constraints that are looked at: those of the disjunction, and the equations of squares. -/
inductive Examined (d : DisjunctionOfConstraintConjunctions V) : ConstraintT V → Prop where
  | base {conj c} : conj ∈ d → c ∈ conj → Examined d c
  | square {c squares q} : Examined d c → judge lib c = .replace squares → q ∈ squares →
      Examined d (lib.constraint q .eq)

/-- A set of constraints that are judged rightly, with the equations of their squares. -/
structure Sound (α : V → ℝ) (S : ConstraintT V → Prop) : Prop where
  judged : ∀ c, S c → ¬ Misjudged lib α c
  square : ∀ c squares q, S c → judge lib c = .replace squares → q ∈ squares →
    S (lib.constraint q .eq)

variable {lib} {S : ConstraintT V → Prop} (hS : Sound lib α S)

include hS

theorem Sound.removeAt {cc : List (ConstraintT V)} (hcc : ∀ c ∈ cc, S c) {pos : Nat}
    {c : ConstraintT V} (hc : cc[pos]? = some c) {squares : List (Poly V ℚ)}
    (hjudge : judge lib c = .replace squares) :
    (∀ d ∈ removeAt cc pos ++ squares.map (lib.constraint · .eq), S d) ∧
      ((∀ d ∈ removeAt cc pos ++ squares.map (lib.constraint · .eq), d.Sat α) ↔
        ∀ d ∈ cc, d.Sat α) := by
  have hperm := removeAt_perm hc
  have hmem : ∀ d, d ∈ cc ↔ d = c ∨ d ∈ VS.removeAt cc pos := fun d => by
    rw [← hperm.mem_iff, mem_cons]
  have hSc : S c := hcc c ((hmem c).mpr (.inl rfl))
  have hcorr := judge_correct lib (hS.judged c hSc)
  rw [hjudge] at hcorr
  constructor
  · rw [forall_mem_append, forall_mem_map]
    exact ⟨fun d hd => hcc d ((hmem d).mpr (.inr hd)),
      fun q hq => hS.square c squares q hSc hjudge hq⟩
  · rw [forall_mem_append, forall_mem_map]
    simp only [lib.sat_constraint, Relation.evaluate, hmem, forall_eq_or_imp]
    rw [and_comm]
    exact and_congr_left fun _ => hcorr

omit hS in
/-- The outcome for a conjunction is equivalent to it. -/
def Leaves (α : V → ℝ) (S : ConstraintT V → Prop) (cc : List (ConstraintT V)) :
    Option (List (ConstraintT V)) → Prop
  | none => ¬ ∀ c ∈ cc, c.Sat α
  | some cc' => (∀ c ∈ cc', S c) ∧ ((∀ c ∈ cc', c.Sat α) ↔ ∀ c ∈ cc, c.Sat α)

theorem Sound.splitConjunction {n : Nat} {cc : List (ConstraintT V)} (hcc : ∀ c ∈ cc, S c)
    {pos : Nat} {r : Option (List (ConstraintT V))} (h : splitConjunction lib n cc pos = some r) :
    Leaves α S cc r := by
  induction n generalizing cc pos with
  | zero => cases h
  | succ n ih =>
    rw [VS.splitConjunction] at h
    cases hc : cc[pos]? with
    | none =>
      rw [hc] at h
      cases h
      exact ⟨hcc, Iff.rfl⟩
    | some c =>
      rw [hc] at h
      dsimp only at h
      cases hjudge : judge lib c with
      | keep =>
        rw [hjudge] at h
        exact ih hcc h
      | invalid =>
        rw [hjudge] at h
        cases h
        have hmem := mem_of_getElem? hc
        have hcorr := judge_correct lib (hS.judged c (hcc c hmem))
        rw [hjudge] at hcorr
        exact fun hall => hcorr (hall c hmem)
      | replace squares =>
        rw [hjudge] at h
        obtain ⟨hrem, hiff⟩ := hS.removeAt hcc hc hjudge
        have hrest := ih hrem h
        cases r with
        | none => exact fun hall => hrest (hiff.mpr hall)
        | some cc' => exact ⟨hrest.1, hrest.2.trans hiff⟩

/-- What is left of the disjunction is equivalent to it. -/
theorem Sound.splitSosDecompositions {fuel n : Nat} {d d' : DisjunctionOfConstraintConjunctions V}
    (hd : ∀ conj ∈ d, ∀ c ∈ conj, S c) {i : Nat}
    (h : splitSosDecompositions lib fuel n d i = some d') : Holds α d' ↔ Holds α d := by
  induction n generalizing d i with
  | zero =>
    cases h
    rfl
  | succ n ih =>
    rw [VS.splitSosDecompositions] at h
    cases hi : d[i]? with
    | none =>
      rw [hi] at h
      cases h
      rfl
    | some cc =>
      rw [hi] at h
      dsimp only at h
      have hperm := removeAt_perm hi
      have hcc := hd cc (mem_of_getElem? hi)
      cases hsplit : VS.splitConjunction lib fuel cc 0 with
      | none =>
        rw [hsplit] at h
        cases h
      | some r =>
        rw [hsplit] at h
        have hr := hS.splitConjunction hcc hsplit
        have hholds : Holds α d ↔ (∀ c ∈ cc, c.Sat α) ∨ Holds α (VS.removeAt d i) := by
          rw [← holds_cons]
          exact exists_congr fun conj => and_congr_left fun _ => hperm.mem_iff.symm
        cases r with
        | none =>
          rw [hholds, or_iff_right hr]
          exact ih (fun conj hconj => hd conj (hperm.mem_iff.mp (mem_cons_of_mem _ hconj))) h
        | some cc' =>
          obtain ⟨hlt, rfl⟩ := List.getElem?_eq_some_iff.mp hi
          obtain ⟨l₁, l₂, hsplit, -, hset⟩ : ∃ l₁ l₂, d = l₁ ++ d[i] :: l₂ ∧ l₁.length = i ∧
              d.set i cc' = l₁ ++ cc' :: l₂ := exists_of_set hlt
          have hd' : ∀ conj ∈ d.set i cc', ∀ c ∈ conj, S c := fun conj hconj =>
            (mem_or_eq_of_mem_set hconj).elim (hd conj) fun heq => heq ▸ hr.1
          rw [ih hd' h, hset, holds_append, holds_cons, hr.2, ← holds_cons, ← holds_append,
            ← hsplit]

omit hS in
/-- If the squares are judged rightly, splitting them keeps the truth value. -/
theorem sound_examined {d : DisjunctionOfConstraintConjunctions V}
    (h : ∀ c, Examined lib d c → ¬ Misjudged lib α c) : Sound lib α (Examined lib d) where
  judged := h
  square := fun _ _ _ hc hjudge hq => .square hc hjudge hq

end Smtrat.VS
