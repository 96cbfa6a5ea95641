import Smtrat.SAT.AddClauses

/-!
# Counting the uses of clauses

A use of a formula is also a use of its subformulas, as far as they are reached over n-ary formulas
only: `uses` says how often.  Counting up and down by `updateCNFInfoCounter` changes the counters by
these numbers, and an entry is erased exactly when its last use is gone.
-/

namespace Smtrat.SAT

open PropFormula List Function

universe u

variable {A : Type u}

/-! ## Parts of formulas -/

theorem mem_partsAll {f : Formula A} {fs : List (Formula A)} :
    f ∈ partsAll fs ↔ ∃ g ∈ fs, f ∈ parts g := by
  induction fs with
  | nil => simp [partsAll]
  | cons g fs ih => simp [partsAll, ih]

theorem mem_parts_self (f : Formula A) : f ∈ parts f := by
  cases f <;> simp [parts]

theorem mem_parts_app {f : Formula A} {c : Connective} {fs : List (Formula A)} :
    f ∈ parts (.app c fs) ↔ f = .app c fs ∨ ∃ g ∈ fs, f ∈ parts g := by
  rw [parts, mem_cons, mem_partsAll]

theorem parts_trans {f g h : Formula A} (hfg : f ∈ parts g) (hgh : g ∈ parts h) : f ∈ parts h := by
  induction h using Formula.induction with
  | hconst b =>
    rw [parts, mem_singleton] at hgh
    rwa [hgh] at hfg
  | hatom a =>
    rw [parts, mem_singleton] at hgh
    rwa [hgh] at hfg
  | happ c fs ih =>
    obtain rfl | ⟨k, hk, hgk⟩ := mem_parts_app.mp hgh
    · exact hfg
    · exact mem_parts_app.mpr (Or.inr ⟨k, hk, ih k hk hgk⟩)

theorem length_parts_le {f : Formula A} {fs : List (Formula A)} (hf : f ∈ fs) :
    (parts f).length ≤ (partsAll fs).length := by
  induction fs with
  | nil => cases hf
  | cons g fs ih =>
    rw [partsAll, length_append]
    obtain rfl | hf := mem_cons.mp hf
    · omega
    · have := ih hf
      omega

theorem length_parts_mono {f g : Formula A} (h : f ∈ parts g) :
    (parts f).length ≤ (parts g).length := by
  induction g using Formula.induction with
  | hconst b =>
    rw [parts, mem_singleton] at h
    rw [h]
  | hatom a =>
    rw [parts, mem_singleton] at h
    rw [h]
  | happ c fs ih =>
    obtain rfl | ⟨k, hk, hfk⟩ := mem_parts_app.mp h
    · exact le_rfl
    · have h₁ := ih k hk hfk
      have h₂ := length_parts_le hk
      rw [parts, length_cons]
      omega

/-- A formula is no part of its arguments. -/
theorem not_mem_parts_arg {c : Connective} {fs : List (Formula A)} {g : Formula A} (hg : g ∈ fs) :
    .app c fs ∉ parts g := by
  intro h
  have h₁ := length_parts_mono h
  have h₂ := length_parts_le hg
  rw [parts, length_cons] at h₁
  omega

/-! ## Uses -/

namespace CnfState

variable (isNary : Connective → Bool)

section Counts

variable {increment : Bool} {m n : Formula A → Nat} {o : Option CNFInfos} {s : CnfState A}
  {h : Formula A}

/-- The entry with `n` uses more, or less. -/
def counts (increment : Bool) (n : Nat) : Option CNFInfos → Option CNFInfos
  | none => none
  | some i =>
    if increment then some { i with mCounter := i.mCounter + n }
    else if n = 0 then some i
    else if i.mCounter ≤ n then none
    else some { i with mCounter := i.mCounter - n }

/-- All counters, changed by `n`. -/
def countBy (increment : Bool) (n : Formula A → Nat) (s : CnfState A) : CnfState A :=
  { s with mFormulaCNFInfosMap := fun h => counts increment (n h) (s.info h) }

/-- The entries that `n` changes exist, with as many uses as are taken away. -/
def Ready (increment : Bool) (s : CnfState A) (n : Formula A → Nat) : Prop :=
  ∀ h, 0 < n h → ∃ i, s.info h = some i ∧ i.mClauses ≠ [] ∧ (increment = false → n h ≤ i.mCounter)

@[simp] theorem counts_zero : counts increment 0 o = o := by
  cases o with
  | none => rfl
  | some i => cases increment <;> rfl

@[simp] theorem info_countBy : (s.countBy increment n).info h = counts increment (n h) (s.info h) :=
  rfl

@[simp] theorem mAssumedTseitinVariable_countBy :
    (s.countBy increment n).mAssumedTseitinVariable = s.mAssumedTseitinVariable := rfl

@[simp] theorem mNonassumedTseitinVariable_countBy :
    (s.countBy increment n).mNonassumedTseitinVariable = s.mNonassumedTseitinVariable := rfl

@[simp] theorem mFormulaAssumptionMap_countBy :
    (s.countBy increment n).mFormulaAssumptionMap = s.mFormulaAssumptionMap := rfl

theorem counts_add (k l : Nat) :
    counts increment l (counts increment k o) = counts increment (k + l) o := by
  cases o with
  | none => rfl
  | some i =>
    cases increment with
    | true => simp [counts, Nat.add_assoc]
    | false =>
      by_cases hk : k = 0
      · simp [counts, hk]
      · by_cases hl : l = 0
        · subst hl
          rw [counts_zero, Nat.add_zero]
        · by_cases hik : i.mCounter ≤ k
          · have hkl : i.mCounter ≤ k + l := by omega
            simp [counts, hk, hik, hkl]
          · have hkl : i.mCounter - k ≤ l ↔ i.mCounter ≤ k + l := by omega
            simp [counts, hk, hl, hik, hkl, Nat.sub_sub]

theorem countBy_zero : s.countBy increment (fun _ => 0) = s := by
  have hinfo : (fun h => counts increment 0 (s.info h)) = s.mFormulaCNFInfosMap := by
    funext h
    exact counts_zero
  rw [countBy, hinfo]

theorem countBy_add :
    (s.countBy increment m).countBy increment n = s.countBy increment fun h => m h + n h := by
  have hinfo : (fun h => counts increment (n h) ((s.countBy increment m).info h)) =
      fun h => counts increment (m h + n h) (s.info h) := by
    funext h
    exact counts_add _ _
  rw [countBy, hinfo]
  rfl

/-- What is left to be counted after a part has been counted. -/
theorem Ready.countBy (hr : Ready increment s fun h => m h + n h) :
    Ready increment (s.countBy increment m) n := by
  intro h hn
  obtain ⟨i, hi, hne, hle⟩ := hr h (Nat.add_pos_right _ hn)
  rw [info_countBy, hi]
  cases increment with
  | true => exact ⟨_, rfl, hne, nofun⟩
  | false =>
    have hle : m h + n h ≤ i.mCounter := hle rfl
    by_cases hm : m h = 0
    · exact ⟨i, by simp [counts, hm], hne, fun _ => by omega⟩
    · have hlt : ¬i.mCounter ≤ m h := by omega
      have hsub : n h ≤ i.mCounter - m h := by omega
      exact ⟨{ i with mCounter := i.mCounter - m h }, by simp [counts, hm, hlt], hne, fun _ => hsub⟩

theorem Ready.left (hr : Ready increment s fun h => m h + n h) : Ready increment s m := by
  intro h hm
  obtain ⟨i, hi, hne, hle⟩ := hr h (Nat.add_pos_left hm _)
  exact ⟨i, hi, hne, fun hinc => (Nat.le_add_right _ _).trans (hle hinc)⟩

end Counts

variable [DecidableEq A]

mutual

/-- How often `h` is counted with a formula. -/
def uses : Formula A → Formula A → Nat
  | .app c fs, h => (if .app c fs = h then 1 else 0) + if isNary c then usesAll fs h else 0
  | _, _ => 0

def usesAll : List (Formula A) → Formula A → Nat
  | [], _ => 0
  | f :: fs, h => (if isNaryFormula isNary f then uses f h else 0) + usesAll fs h

end

variable {isNary} {f h : Formula A} {fs : List (Formula A)} {c : Connective} {s : CnfState A}

theorem usesAll_pos : 0 < usesAll isNary fs h ↔
    ∃ f ∈ fs, isNaryFormula isNary f = true ∧ 0 < uses isNary f h := by
  induction fs with
  | nil => simp [usesAll]
  | cons f fs ih =>
    rw [usesAll, Nat.add_pos_iff_pos_or_pos, ih]
    by_cases hf : isNaryFormula isNary f = true <;> simp [hf]

theorem mem_parts_of_uses (hu : 0 < uses isNary f h) : h ∈ parts f := by
  induction f using Formula.induction with
  | hconst b => simp [uses] at hu
  | hatom a => simp [uses] at hu
  | happ c fs ih =>
    rw [mem_parts_app]
    by_cases hh : .app c fs = h
    · exact Or.inl hh.symm
    · rw [uses, if_neg hh, Nat.zero_add] at hu
      split_ifs at hu with hc
      · obtain ⟨f, hf, -, hu⟩ := usesAll_pos.mp hu
        exact Or.inr ⟨f, hf, ih f hf hu⟩
      · cases hu

theorem usesAll_self : usesAll isNary fs (.app c fs) = 0 := by
  by_contra hne
  obtain ⟨f, hf, -, hu⟩ := usesAll_pos.mp (Nat.pos_of_ne_zero hne)
  exact not_mem_parts_arg hf (mem_parts_of_uses hu)

theorem uses_self : uses isNary (.app c fs) (.app c fs) = 1 := by
  rw [uses, if_pos rfl, usesAll_self]
  split_ifs <;> rfl

@[simp] theorem info_setInfo_self (s : CnfState A) (f : Formula A) (i : Option CNFInfos) :
    (s.setInfo f i).info f = i := update_self _ _ _

theorem info_setInfo_of_ne (hne : h ≠ f) (i : Option CNFInfos) :
    (s.setInfo f i).info h = s.info h := update_of_ne hne _ _

/-! ## Counting -/

variable {increment : Bool} {i : CNFInfos}

theorem updateAll_eq
    (ih : ∀ f ∈ fs, ∀ s : CnfState A, Ready increment s (uses isNary f) →
      s.updateCNFInfoCounter isNary increment f = s.countBy increment (uses isNary f))
    (hr : Ready increment s (usesAll isNary fs)) :
    s.updateAll isNary increment fs = s.countBy increment (usesAll isNary fs) := by
  induction fs generalizing s with
  | nil => exact countBy_zero.symm
  | cons f fs ihs =>
    have hfst : (if isNaryFormula isNary f then s.updateCNFInfoCounter isNary increment f
        else s) = s.countBy increment
          fun h => if isNaryFormula isNary f then uses isNary f h else 0 := by
      have hr := hr.left
      by_cases hf : isNaryFormula isNary f = true
      · simp only [hf, if_true] at hr ⊢
        exact ih f mem_cons_self s hr
      · simp only [hf]
        exact countBy_zero.symm
    rw [updateAll, hfst, ihs (fun g hg => ih g (mem_cons_of_mem f hg)) hr.countBy, countBy_add]
    rfl

/-- The entry of a formula is counted by itself; it is out of the way of the other ones. -/
theorem count_entry {s' : CnfState A} (hi : s.info f = some i) (hne : i.mClauses ≠ [])
    (hn : n f = 0)
    (hs' : s' = (s.setInfo f (some (i.count increment))).countBy increment n) :
    (if !increment && (i.count increment).mClauses.isEmpty then s'.setInfo f none else s') =
      s.countBy increment fun h => (if f = h then 1 else 0) + n h := by
  have hcnt : counts increment 1 (some i) =
      if !increment && (i.count increment).mClauses.isEmpty then none
      else some (i.count increment) := by
    cases increment with
    | true => rfl
    | false =>
      by_cases hone : i.mCounter ≤ 1
      · have hzero : i.mCounter - 1 = 0 := by omega
        simp [counts, CNFInfos.count, hone, hzero]
      · have hzero : ¬i.mCounter - 1 = 0 := by omega
        simp [counts, CNFInfos.count, hone, hzero, hne]
  have hother : ∀ h, h ≠ f → s'.info h =
      counts increment ((if f = h then 1 else 0) + n h) (s.info h) := by
    intro h hh
    rw [hs', info_countBy, info_setInfo_of_ne hh, if_neg hh.symm, Nat.zero_add]
  have hself : s'.info f = some (i.count increment) := by
    rw [hs', info_countBy, info_setInfo_self, hn, counts_zero]
  have hf : counts increment ((if f = f then 1 else 0) + n f) (s.info f) =
      if !increment && (i.count increment).mClauses.isEmpty then none
      else some (i.count increment) := by
    rw [if_pos rfl, hn, hi, Nat.add_zero, hcnt]
  by_cases herase : (!increment && (i.count increment).mClauses.isEmpty) = true
  · rw [if_pos herase] at hf ⊢
    have hmap : (s'.setInfo f none).mFormulaCNFInfosMap =
        fun h => counts increment ((if f = h then 1 else 0) + n h) (s.info h) := by
      funext h
      by_cases hh : h = f
      · rw [hh, hf]
        exact info_setInfo_self s' f none
      · exact (info_setInfo_of_ne hh none).trans (hother h hh)
    rw [countBy, ← hmap, hs']
    rfl
  · rw [if_neg herase] at hf ⊢
    have hmap : s'.mFormulaCNFInfosMap =
        fun h => counts increment ((if f = h then 1 else 0) + n h) (s.info h) := by
      funext h
      by_cases hh : h = f
      · rw [hh, hf]
        exact hself
      · exact hother h hh
    rw [countBy, ← hmap, hs']
    rfl

/-- The uses are counted, and an entry is erased when its last use is gone. -/
theorem updateCNFInfoCounter_eq (hr : Ready increment s (uses isNary f)) :
    s.updateCNFInfoCounter isNary increment f = s.countBy increment (uses isNary f) := by
  induction f using Formula.induction generalizing s with
  | hconst b => exact countBy_zero.symm
  | hatom a => exact countBy_zero.symm
  | happ c fs ih =>
    obtain ⟨i, hi, hne, -⟩ := hr (.app c fs) (by rw [uses_self]; exact Nat.one_pos)
    have hargs : ∀ h, h ≠ .app c fs →
        uses isNary (.app c fs) h = if isNary c then usesAll isNary fs h else 0 := by
      intro h hh
      rw [uses, if_neg hh.symm, Nat.zero_add]
    have hall : (if isNary c then
        (s.setInfo (.app c fs) (some (i.count increment))).updateAll isNary increment fs
        else s.setInfo (.app c fs) (some (i.count increment))) =
        (s.setInfo (.app c fs) (some (i.count increment))).countBy increment
          fun h => if isNary c then usesAll isNary fs h else 0 := by
      by_cases hc : isNary c = true
      · simp only [hc, if_true]
        refine updateAll_eq (fun f hf s hr => ih f hf hr) fun h hu => ?_
        have hh : h ≠ .app c fs := by
          rintro rfl
          rw [usesAll_self] at hu
          exact absurd hu (lt_irrefl 0)
        have hu' : uses isNary (.app c fs) h = usesAll isNary fs h := by
          rw [hargs h hh, if_pos hc]
        obtain ⟨j, hj, hjne, hjle⟩ := hr h (by rw [hu']; exact hu)
        exact ⟨j, by rw [info_setInfo_of_ne hh, hj], hjne, fun hinc => hu' ▸ hjle hinc⟩
      · simp only [hc]
        exact countBy_zero.symm
    rw [updateCNFInfoCounter, hi]
    refine count_entry hi hne ?_ hall
    rw [usesAll_self, ite_self]

end CnfState

end Smtrat.SAT
