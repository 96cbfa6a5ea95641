import Mathlib

/-!
# Arrangements of Boolean lists

The arrangements of a list with given numbers of `false` and `true` are visited in lexicographic order,
each time going to the next one.  From the least arrangement, with all `false` in front, this visits all
of them.
-/

namespace Arrangement
open List

/-- The arrangement with all `false` in front. -/
def least (falses trues : ℕ) : List Bool := List.replicate falses false ++ List.replicate trues true

/-- The next arrangement in lexicographic order: the last `false` with a `true` behind it is raised, and
what follows is arranged anew, as low as possible. -/
def nextPermutation : List Bool → Option (List Bool)
  | [] => none
  | b :: l =>
    match nextPermutation l with
    | some l' => some (b :: l')
    | none =>
      if b = false ∧ true ∈ l then some (true :: least (l.count false + 1) (l.count true - 1)) else none

/-- The value of the digits in binary, the first digit being the highest one.  Among lists of the same
length this is their position in lexicographic order. -/
def rank : List Bool → ℕ
  | [] => 0
  | b :: l => (bif b then 2 ^ l.length else 0) + rank l

/-- Lists of the same length with equally many `true`. -/
def Rearranges (m l : List Bool) : Prop := m.length = l.length ∧ m.count true = l.count true

namespace Rearranges

variable {l m k : List Bool}

theorem refl (l : List Bool) : Rearranges l l := ⟨rfl, rfl⟩

theorem symm (h : Rearranges m l) : Rearranges l m := ⟨h.1.symm, h.2.symm⟩

theorem trans (h : Rearranges k m) (h' : Rearranges m l) : Rearranges k l :=
  ⟨h.1.trans h'.1, h.2.trans h'.2⟩

theorem cons_iff {b : Bool} : Rearranges (b :: m) (b :: l) ↔ Rearranges m l := by
  simp [Rearranges, count_cons]

end Rearranges

/-! ## Ranks -/

theorem rank_lt (l : List Bool) : rank l < 2 ^ l.length := by
  induction l with
  | nil => exact Nat.one_pos
  | cons b l ih =>
    rw [rank, length_cons, Nat.pow_succ]
    cases b <;> simp only [cond_true, cond_false] <;> omega

theorem rank_injective {l m : List Bool} (hlen : m.length = l.length) (h : rank m = rank l) : m = l := by
  induction l generalizing m with
  | nil => exact eq_nil_of_length_eq_zero hlen
  | cons b l ih =>
    cases m with
    | nil => simp at hlen
    | cons c m =>
      have hlen' : m.length = l.length := Nat.succ.inj hlen
      have hl := rank_lt l
      have hm := rank_lt m
      rw [rank, rank, hlen'] at h
      rw [hlen'] at hm
      cases b <;> cases c <;> simp only [cond_true, cond_false] at h
      · rw [ih hlen' (by omega)]
      · omega
      · omega
      · rw [ih hlen' (by omega)]

theorem rank_replicate_true (k : ℕ) : rank (List.replicate k true) + 1 = 2 ^ k := by
  induction k with
  | zero => rfl
  | succ k ih =>
    rw [replicate_succ, rank, length_replicate, cond_true, Nat.pow_succ]
    omega

theorem rank_least (falses trues : ℕ) : rank (least falses trues) + 1 = 2 ^ trues := by
  induction falses with
  | zero => exact rank_replicate_true trues
  | succ n ih =>
    rw [least, replicate_succ, cons_append, rank, cond_false, Nat.zero_add]
    exact ih

/-- Digits that are set add at least as much as the lowest ones. -/
theorem pow_count_le (l : List Bool) : 2 ^ l.count true ≤ rank l + 1 := by
  induction l with
  | nil => exact Nat.le_refl 1
  | cons b l ih =>
    cases b with
    | false => simpa [rank] using ih
    | true =>
      have hle : 2 ^ l.count true ≤ 2 ^ l.length := Nat.pow_le_pow_right (by omega) count_le_length
      rw [count_cons_self, rank, cond_true, Nat.pow_succ]
      omega

theorem length_least (falses trues : ℕ) : (least falses trues).length = falses + trues := by
  simp [least]

theorem count_least (falses trues : ℕ) : (least falses trues).count true = trues := by
  simp [least, count_replicate]

theorem rank_least_le {l : List Bool} {falses : ℕ} : rank (least falses (l.count true)) ≤ rank l := by
  have h := rank_least falses (l.count true)
  have hle := pow_count_le l
  omega

/-! ## The next arrangement -/

/-- A list without a next arrangement is the last one. -/
theorem rank_le_of_nextPermutation_eq_none {l : List Bool} (h : nextPermutation l = none) {m : List Bool}
    (hm : Rearranges m l) : rank m ≤ rank l := by
  induction l generalizing m with
  | nil => rw [eq_nil_of_length_eq_zero hm.1]
  | cons b l ih =>
    rw [nextPermutation] at h
    cases hnext : nextPermutation l with
    | some l' => simp [hnext] at h
    | none =>
      cases m with
      | nil => exact absurd hm.1 (by simp)
      | cons c m =>
        have hlen : m.length = l.length := Nat.succ.inj hm.1
        have hrank : rank m < 2 ^ l.length := hlen ▸ rank_lt m
        rw [rank, rank, hlen]
        by_cases hbc : c = b
        · subst hbc
          have hle := ih hnext (Rearranges.cons_iff.mp hm)
          omega
        · cases b with
          | true =>
            have hc : c = false := by simpa using hbc
            subst hc
            simp only [cond_true, cond_false]
            omega
          | false =>
            -- no `true` is left for the first digit
            have hc : c = true := by simpa using hbc
            subst hc
            have hmem : true ∉ l := by simpa [hnext] using h
            have hcnt := hm.2
            rw [count_cons_self, count_cons_of_ne (by decide),
              count_eq_zero_of_not_mem hmem] at hcnt
            omega

/-- The next arrangement is one of the same list, behind it, with none in between. -/
theorem nextPermutation_spec {l l' : List Bool} (h : nextPermutation l = some l') :
    Rearranges l' l ∧ rank l < rank l' ∧ ∀ m, Rearranges m l → rank l < rank m → rank l' ≤ rank m := by
  induction l generalizing l' with
  | nil => simp [nextPermutation] at h
  | cons b l ih =>
    rw [nextPermutation] at h
    cases hnext : nextPermutation l with
    | some t =>
      obtain rfl : b :: t = l' := by simpa [hnext] using h
      obtain ⟨hsame, hlt, hleast⟩ := ih hnext
      have hrank : rank t < 2 ^ l.length := hsame.1 ▸ rank_lt t
      refine ⟨Rearranges.cons_iff.mpr hsame, ?_, fun m hm hltm => ?_⟩
      · rw [rank, rank, hsame.1]
        omega
      · cases m with
        | nil => exact absurd hm.1 (by simp)
        | cons c m =>
          have hlen : m.length = l.length := Nat.succ.inj hm.1
          have hrankm : rank m < 2 ^ l.length := hlen ▸ rank_lt m
          rw [rank, rank, hlen] at hltm
          rw [rank, rank, hsame.1, hlen]
          by_cases hbc : c = b
          · subst hbc
            have hle := hleast m (Rearranges.cons_iff.mp hm) (by omega)
            omega
          · cases b <;> cases c <;> simp only [cond_true, cond_false] at hltm ⊢ <;>
              first | exact absurd rfl hbc | omega
    | none =>
      simp only [hnext] at h
      by_cases hraise : b = false ∧ true ∈ l
      · rw [if_pos hraise, Option.some.injEq] at h
        obtain ⟨rfl, hmem⟩ := hraise
        subst h
        have hpos : 0 < l.count true := count_pos_iff.mpr hmem
        have hcounts := count_false_add_count_true l
        have hlenl : (least (l.count false + 1) (l.count true - 1)).length = l.length := by
          rw [length_least]
          omega
        refine ⟨⟨?_, ?_⟩, ?_, fun m hm hltm => ?_⟩
        · rw [length_cons, length_cons, hlenl]
        · rw [count_cons_self, count_least, count_cons_of_ne (by decide)]
          omega
        · have hrank := rank_lt l
          rw [rank, rank, hlenl]
          simp only [cond_true, cond_false]
          omega
        · cases m with
          | nil => exact absurd hm.1 (by simp)
          | cons c m =>
            have hlen : m.length = l.length := Nat.succ.inj hm.1
            cases c with
            | false =>
              -- what follows the first digit cannot be raised
              have hle := rank_le_of_nextPermutation_eq_none hnext (Rearranges.cons_iff.mp hm)
              simp only [rank, cond_false] at hltm
              omega
            | true =>
              have hcnt : m.count true = l.count true - 1 := by
                have := hm.2
                rw [count_cons_self, count_cons_of_ne (by decide)] at this
                omega
              have hle : rank (least (l.count false + 1) (l.count true - 1)) ≤ rank m :=
                hcnt ▸ rank_least_le
              rw [rank, rank, hlenl, hlen]
              omega
      · rw [if_neg hraise] at h
        simp at h

/-! ## All arrangements -/

/-- The arrangements from a list on, as a `do … while (next_permutation(…))` loop visits them. -/
def arrangements (l : List Bool) : List (List Bool) :=
  l :: match _h : nextPermutation l with
    | none => []
    | some l' => arrangements l'
termination_by 2 ^ l.length - rank l
decreasing_by
  obtain ⟨hsame, hlt, -⟩ := nextPermutation_spec _h
  have hl' := rank_lt l'
  rw [hsame.1] at hl' ⊢
  omega

/-- The arrangements from a list on are those behind it. -/
theorem mem_arrangements {l m : List Bool} :
    m ∈ arrangements l ↔ Rearranges m l ∧ rank l ≤ rank m := by
  induction l using arrangements.induct with
  | case1 l ih =>
    rw [arrangements, mem_cons]
    split
    next hnext =>
      constructor
      · rintro (rfl | h)
        · exact ⟨.refl m, Nat.le_refl _⟩
        · exact absurd h not_mem_nil
      · rintro ⟨hm, hle⟩
        exact .inl (rank_injective hm.1 (Nat.le_antisymm (rank_le_of_nextPermutation_eq_none hnext hm) hle))
    next l' hnext =>
      obtain ⟨hsame, hlt, hleast⟩ := nextPermutation_spec hnext
      rw [ih l' hnext]
      constructor
      · rintro (rfl | ⟨hm, hle⟩)
        · exact ⟨.refl m, Nat.le_refl _⟩
        · exact ⟨hm.trans hsame, hlt.le.trans hle⟩
      · rintro ⟨hm, hle⟩
        rcases hle.eq_or_lt with heq | hltm
        · exact .inl (rank_injective hm.1 heq.symm)
        · exact .inr ⟨hm.trans hsame.symm, hleast m hm hltm⟩

/-- From the least arrangement on all are visited. -/
theorem mem_arrangements_least {falses trues : ℕ} {m : List Bool} :
    m ∈ arrangements (least falses trues) ↔ m.length = falses + trues ∧ m.count true = trues := by
  rw [mem_arrangements, Rearranges, length_least, count_least]
  refine ⟨And.left, fun h => ⟨h, ?_⟩⟩
  have hle : rank (least falses (m.count true)) ≤ rank m := rank_least_le
  rwa [h.2] at hle

end Arrangement
