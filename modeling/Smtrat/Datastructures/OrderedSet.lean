import Mathlib

/-!
# Sets as lists in the order of a comparison

Insertion compares as `std::set::insert` does: an element that is neither smaller nor greater than
the new one is kept in its place.  The results are about comparisons that follow a linear order of
keys, on the elements at hand.
-/

namespace OrderedSet
open List

universe u v

variable {α : Type u} {β : Type v} [LinearOrder β]

/-- The set after the insertion, the element that is in it now, and whether this is the new one. -/
def insert (lt : α → α → Bool) (a : α) : List α → List α × α × Bool
  | [] => ([a], a, true)
  | b :: bs =>
    if lt b a then
      let (cs, c, inserted) := insert lt a bs
      (b :: cs, c, inserted)
    else if lt a b then (a :: b :: bs, a, true)
    else (b :: bs, b, false)

/-- The comparison of the elements of `S` is that of their keys. -/
def Follows (lt : α → α → Bool) (key : α → β) (S : α → Prop) : Prop :=
  ∀ a b, S a → S b → (lt a b = true ↔ key a < key b)

/-- The elements are listed by increasing keys. -/
def Sorted (key : α → β) (bs : List α) : Prop := bs.Pairwise fun a b => key a < key b

variable {lt : α → α → Bool} {key : α → β} {S : α → Prop} {a b : α} {bs : List α}

theorem Sorted.key_injective (h : Sorted key bs) (ha : a ∈ bs) (hb : b ∈ bs)
    (hkey : key a = key b) : a = b := by
  induction bs with
  | nil => cases ha
  | cons c cs ih =>
    obtain ⟨hc, hcs⟩ := pairwise_cons.mp h
    rcases mem_cons.mp ha with hac | ha
    · rcases mem_cons.mp hb with hbc | hb
      · exact hac.trans hbc.symm
      · exact absurd hkey (hac ▸ (hc b hb).ne)
    · rcases mem_cons.mp hb with hbc | hb
      · exact absurd hkey (hbc ▸ (hc a ha).ne')
      · exact ih hcs ha hb

/-- What an insertion into a set does. -/
structure Inserts (key : α → β) (a : α) (bs : List α) (result : List α × α × Bool) : Prop where
  sorted : Sorted key result.1
  mem : ∀ b, b ∈ result.1 ↔ b ∈ bs ∨ result.2.2 = true ∧ b = a
  found : result.2.1 ∈ result.1
  key_eq : key result.2.1 = key a
  inserted : result.2.2 = true → result.2.1 = a ∧ ∀ b ∈ bs, key b ≠ key a

theorem insert_spec (hlt : Follows lt key S) (ha : S a) (hS : ∀ b ∈ bs, S b) (h : Sorted key bs) :
    Inserts key a bs (insert lt a bs) := by
  induction bs with
  | nil =>
    refine ⟨pairwise_singleton _ _, fun b => ?_, mem_singleton_self _, rfl,
      fun _ => ⟨rfl, fun b hb => absurd hb not_mem_nil⟩⟩
    simp [insert]
  | cons b bs ih =>
    obtain ⟨hb, hbs⟩ := pairwise_cons.mp h
    have hrec := ih (fun c hc => hS c (mem_cons_of_mem b hc)) hbs
    have hba := hlt b a (hS b mem_cons_self) ha
    have hab := hlt a b ha (hS b mem_cons_self)
    rw [insert]
    by_cases hlt₁ : lt b a = true
    · rw [if_pos hlt₁]
      have hkey : key b < key a := hba.mp hlt₁
      refine ⟨?_, fun c => ?_, mem_cons_of_mem b hrec.found, hrec.key_eq, fun hi => ?_⟩
      · refine pairwise_cons.mpr ⟨fun c hc => ?_, hrec.sorted⟩
        rcases (hrec.mem c).mp hc with hc | ⟨-, rfl⟩
        · exact hb c hc
        · exact hkey
      · show c ∈ b :: (insert lt a bs).1 ↔ c ∈ b :: bs ∨ _
        rw [mem_cons, mem_cons, hrec.mem, or_assoc]
      · obtain ⟨heq, hne⟩ := hrec.inserted hi
        refine ⟨heq, fun c hc => ?_⟩
        rcases mem_cons.mp hc with rfl | hc
        · exact hkey.ne
        · exact hne c hc
    · rw [if_neg hlt₁]
      have hle : key a ≤ key b := not_lt.mp (hba.not.mp hlt₁)
      by_cases hlt₂ : lt a b = true
      · rw [if_pos hlt₂]
        have hkey : key a < key b := hab.mp hlt₂
        refine ⟨?_, fun c => ?_, mem_cons_self, rfl, fun _ => ⟨rfl, fun c hc => ?_⟩⟩
        · refine pairwise_cons.mpr ⟨fun c hc => ?_, h⟩
          rcases mem_cons.mp hc with rfl | hc
          · exact hkey
          · exact hkey.trans (hb c hc)
        · show c ∈ a :: b :: bs ↔ c ∈ b :: bs ∨ true = true ∧ c = a
          rw [mem_cons, or_comm]
          simp
        · rcases mem_cons.mp hc with rfl | hc
          · exact hkey.ne'
          · exact (hkey.trans (hb c hc)).ne'
      · rw [if_neg hlt₂]
        refine ⟨h, fun c => ?_, mem_cons_self, ?_, fun hi => absurd hi (by simp)⟩
        · simp
        · exact le_antisymm (not_lt.mp (hab.not.mp hlt₂)) hle

/-- A new element stands in front of the greater ones. -/
theorem insert_eq (hlt : Follows lt key S) (ha : S a) (hS : ∀ b ∈ bs, S b) (h : Sorted key bs) :
    (insert lt a bs).1 = if (insert lt a bs).2.2
      then bs.takeWhile (fun b => !lt a b) ++ a :: bs.dropWhile fun b => !lt a b else bs := by
  induction bs with
  | nil => rfl
  | cons b bs ih =>
    have hrec := ih (fun c hc => hS c (mem_cons_of_mem b hc)) (pairwise_cons.mp h).2
    have hba := hlt b a (hS b mem_cons_self) ha
    have hab := hlt a b ha (hS b mem_cons_self)
    rw [insert]
    by_cases hlt₁ : lt b a = true
    · have hnot : lt a b = false := by
        rw [← Bool.not_eq_true, hab]
        exact (hba.mp hlt₁).asymm
      simp only [if_pos hlt₁, hrec, takeWhile_cons, dropWhile_cons, hnot, Bool.not_false, if_true]
      split_ifs <;> rfl
    · by_cases hlt₂ : lt a b = true
      · simp [hlt₁, hlt₂]
      · simp [hlt₁, hlt₂]

/-! ## The first and the last element with a property -/

/-- The first element with a property is the least one. -/
theorem Sorted.find?_le {p : α → Bool} (h : Sorted key bs) (hfind : bs.find? p = some a)
    (hb : b ∈ bs) (hpb : p b = true) : key a ≤ key b := by
  induction bs with
  | nil => cases hb
  | cons c cs ih =>
    obtain ⟨hc, hcs⟩ := pairwise_cons.mp h
    rw [find?_cons] at hfind
    cases hpc : p c with
    | true =>
      rw [hpc] at hfind
      obtain rfl := Option.some.inj hfind
      rcases mem_cons.mp hb with rfl | hb
      · exact le_rfl
      · exact (hc b hb).le
    | false =>
      rw [hpc] at hfind
      rcases mem_cons.mp hb with rfl | hb
      · rw [hpc] at hpb
        cases hpb
      · exact ih hcs hfind hb

/-- The last element with a property is the greatest one. -/
theorem Sorted.le_find?_reverse {p : α → Bool} (h : Sorted key bs)
    (hfind : bs.reverse.find? p = some a) (hb : b ∈ bs) (hpb : p b = true) : key b ≤ key a := by
  have hreverse : Sorted (β := βᵒᵈ) (fun c => OrderDual.toDual (key c)) bs.reverse := by
    rw [Sorted, pairwise_reverse]
    exact h
  exact hreverse.find?_le hfind (mem_reverse.mpr hb) hpb

end OrderedSet

/-!
## Maps as lists in the order of their keys

Insertion leaves an entry with an equal key alone, as `std::map::emplace` does.
-/

namespace OrderedMap
open List

universe u v

variable {K : Type u} {V : Type v} [LinearOrder K]

def emplace (k : K) (v : V) : List (K × V) → List (K × V)
  | [] => [(k, v)]
  | e :: m =>
    if k < e.1 then (k, v) :: e :: m
    else if k = e.1 then e :: m
    else e :: emplace k v m

def find (k : K) : List (K × V) → Option V
  | [] => none
  | e :: m => if k = e.1 then some e.2 else find k m

/-- Removes the entry of a key. -/
def erase (k : K) (m : List (K × V)) : List (K × V) := m.filter (·.1 ≠ k)

variable {k l : K} {v : V} {e : K × V} {m : List (K × V)}

theorem mem_emplace (h : e ∈ emplace k v m) : e ∈ m ∨ e = (k, v) := by
  induction m with
  | nil => exact .inr (mem_singleton.mp h)
  | cons d m ih =>
    rw [emplace] at h
    split_ifs at h
    · rcases mem_cons.mp h with h | h
      · exact .inr h
      · exact .inl h
    · exact .inl h
    · rcases mem_cons.mp h with h | h
      · exact .inl (mem_cons.mpr (.inl h))
      · exact (ih h).imp_left (mem_cons_of_mem _)

theorem mem_emplace_of_mem (h : e ∈ m) : e ∈ emplace k v m := by
  induction m with
  | nil => exact absurd h not_mem_nil
  | cons d m ih =>
    rw [emplace]
    split_ifs
    · exact mem_cons_of_mem _ h
    · exact h
    · rcases mem_cons.mp h with h | h
      · exact mem_cons.mpr (.inl h)
      · exact mem_cons_of_mem _ (ih h)

/-- After the insertion the key has an entry. -/
theorem exists_mem_emplace (k : K) (v : V) (m : List (K × V)) : ∃ w, (k, w) ∈ emplace k v m := by
  induction m with
  | nil => exact ⟨v, mem_singleton.mpr rfl⟩
  | cons d m ih =>
    rw [emplace]
    split_ifs with hlt heq
    · exact ⟨v, mem_cons_self⟩
    · exact ⟨d.2, by rw [heq]; exact mem_cons_self⟩
    · obtain ⟨w, hw⟩ := ih
      exact ⟨w, mem_cons_of_mem _ hw⟩

theorem find_emplace_of_ne (h : l ≠ k) : find l (emplace k v m) = find l m := by
  induction m with
  | nil =>
    show (if l = k then some v else none) = none
    exact if_neg h
  | cons d m ih =>
    rw [emplace]
    split_ifs with hlt heq
    · rw [find, if_neg h]
    · rfl
    · rw [find, find, ih]

theorem find_emplace_self (h : find k m = none) : find k (emplace k v m) = some v := by
  induction m with
  | nil => rw [emplace, find, if_pos rfl]
  | cons d m ih =>
    rw [find] at h
    split_ifs at h with heq
    rw [emplace, if_neg heq]
    split_ifs with hlt
    · rw [find, if_pos rfl]
    · rw [find, if_neg heq, ih h]

theorem find_eq_none : find k m = none ↔ ∀ v, (k, v) ∉ m := by
  induction m with
  | nil => exact ⟨fun _ _ => not_mem_nil, fun _ => rfl⟩
  | cons d m ih =>
    rw [find]
    split_ifs with heq
    · refine ⟨nofun, fun h => absurd ?_ (h d.2)⟩
      rw [heq]
      exact mem_cons_self
    · rw [ih]
      refine forall_congr' fun v => not_congr ?_
      rw [mem_cons]
      refine (or_iff_right ?_).symm
      rintro rfl
      exact heq rfl

theorem mem_of_find (h : find k m = some v) : (k, v) ∈ m := by
  induction m with
  | nil => exact nomatch h
  | cons d m ih =>
    rw [find] at h
    split_ifs at h with heq
    · rw [heq, ← Option.some_inj.mp h]
      exact mem_cons_self
    · exact mem_cons_of_mem _ (ih h)

theorem mem_emplace_iff (h : find k m = none) : e ∈ emplace k v m ↔ e = (k, v) ∨ e ∈ m := by
  refine ⟨fun he => (mem_emplace he).symm, ?_⟩
  rintro (rfl | he)
  · exact mem_of_find (find_emplace_self h)
  · exact mem_emplace_of_mem he

theorem mem_erase : e ∈ erase k m ↔ e ∈ m ∧ e.1 ≠ k := by
  rw [erase, mem_filter, decide_eq_true_iff]

end OrderedMap
