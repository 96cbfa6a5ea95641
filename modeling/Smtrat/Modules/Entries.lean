import Smtrat.Modules.OriginBookkeeping

/-!
# Entries of module inputs

The entries of a module input are its formulas with their positions.  Changes of origins leave them
as they are, an addition appends some and an erasure takes one away.
-/

namespace Smtrat

open PropFormula List

universe u

variable {A : Type u}

namespace ModuleInput

/-- The elements without their origins. -/
def entries (m : ModuleInput A) : List (Nat × Formula A) :=
  m.elements.map fun e => (e.position, e.mFormula)

theorem entries_setOrigins (m : ModuleInput A) (it : Nat) (v : Option Nat) :
    (m.setOrigins it v).entries = m.entries := by
  rw [entries, entries, setOrigins, map_map]
  refine map_congr_left fun e _ => ?_
  simp only [Function.comp_apply]
  split_ifs <;> rfl

theorem entries_formulas (m : ModuleInput A) : m.entries.map (·.2) = m.formulas := by
  rw [entries, formulas, map_map]
  rfl

variable {m : ModuleInput A}

theorem WellFormed.formulas_nodup (hm : m.WellFormed) : m.formulas.Nodup := by
  have hpos := List.Nodup.of_map _ hm.positions_nodup
  exact hpos.map_on fun e he e' he' h => hm.eq_of_formula he he' h

theorem position_of_element {it : Nat} {e : FormulaWithOrigins A}
    (h : m.element it = some e) : e ∈ m.elements ∧ e.position = it :=
  ⟨mem_of_find?_eq_some h, by simpa using find?_some h⟩

/-- The origins are changed, and nothing else. -/
structure SameEntries (m m' : ModuleInput A) : Prop where
  wellFormed : m.WellFormed → m'.WellFormed
  entries : m'.entries = m.entries

namespace SameEntries

theorem refl (m : ModuleInput A) : m.SameEntries m := ⟨id, rfl⟩

theorem trans {m' m'' : ModuleInput A} (h : m.SameEntries m') (h' : m'.SameEntries m'') :
    m.SameEntries m'' :=
  ⟨fun hm => h'.wellFormed (h.wellFormed hm), h'.entries.trans h.entries⟩

theorem allocate (m : ModuleInput A) (os : List (Formula A)) : m.SameEntries (m.allocate os) :=
  ⟨fun hm => hm.allocate os, rfl⟩

theorem setVector (m : ModuleInput A) (v : Nat) (os : List (Formula A)) :
    m.SameEntries (m.setVector v os) :=
  ⟨fun hm => hm.setVector v os, rfl⟩

theorem setOrigins (m : ModuleInput A) (it : Nat) (v : Option Nat) :
    m.SameEntries (m.setOrigins it v) :=
  ⟨fun hm => hm.setOrigins it v, entries_setOrigins m it v⟩

theorem addOrigin (m : ModuleInput A) (it : Nat) (o : Formula A) :
    m.SameEntries (m.addOrigin it o) := by
  rw [ModuleInput.addOrigin]
  cases m.pOrigins it with
  | none => exact (allocate m _).trans (setOrigins _ _ _)
  | some v => exact setVector _ _ _

theorem addOrigins (m : ModuleInput A) (it os : Nat) : m.SameEntries (m.addOrigins it os) := by
  rw [ModuleInput.addOrigins]
  cases m.pOrigins it with
  | none => exact setOrigins _ _ _
  | some v => exact (allocate m _).trans (setOrigins _ _ _)

variable [DecidableEq A]

theorem removeOrigin (m : ModuleInput A) (it : Nat) (f : Formula A) :
    m.SameEntries (m.removeOrigin it f).2 := by
  rw [ModuleInput.removeOrigin]
  cases m.pOrigins it with
  | none => exact refl m
  | some v =>
    dsimp only
    split_ifs
    · exact (setVector _ _ _).trans (setOrigins _ _ _)
    · exact setVector _ _ _

theorem removeOrigins (m : ModuleInput A) (it : Nat) (os : Option Nat) :
    m.SameEntries (m.removeOrigins it os).2 := by
  rw [ModuleInput.removeOrigins]
  cases m.pOrigins it with
  | none => exact refl m
  | some v =>
    dsimp only
    split_ifs
    · exact setOrigins _ _ _
    · exact (setVector _ _ _).trans (setOrigins _ _ _)
    · exact setVector _ _ _

end SameEntries

/-- An addition appends new entries.  It says whether there are any, and where the first is. -/
structure Appends (m : ModuleInput A) (res : Option Nat × Bool) (m' : ModuleInput A)
    (new : List (Nat × Formula A)) : Prop where
  wellFormed : m.WellFormed → m'.WellFormed
  entries : m'.entries = m.entries ++ new
  added : res.2 = !new.isEmpty
  first : new ≠ [] → res.1 = new.head?.map (·.1)

theorem SameEntries.appends {m' : ModuleInput A} (h : m.SameEntries m') (it : Option Nat) :
    Appends m (it, false) m' [] :=
  ⟨h.wellFormed, by rw [h.entries, append_nil], rfl, fun h => absurd (rfl) h⟩

variable [DecidableEq A]

theorem entries_erase (m : ModuleInput A) (it : Nat) :
    (m.erase it).entries = m.entries.filter (·.1 ≠ it) := by
  rw [erase]
  cases h : m.element it with
  | none =>
    change m.entries = _
    refine (filter_eq_self.mpr fun e he => ?_).symm
    obtain ⟨e', he', rfl⟩ := mem_map.mp he
    exact decide_eq_true (by simpa using find?_eq_none.mp h e' he')
  | some e =>
    rw [entries, entries, filter_map]
    rfl

/-! ## Additions -/

theorem emplaceBack_appends {f : Formula A} (hf : m.find f = none) (v : Option Nat) :
    Appends m (some m.nextPosition, true) (m.emplaceBack f v) [(m.nextPosition, f)] where
  wellFormed := fun hm => hm.emplaceBack hf v
  entries := by
    rw [ModuleInput.entries, emplaceBack, map_append]
    rfl
  added := rfl
  first := fun _ => rfl

theorem addElement_appends (given : Given A) (f : Formula A) (m : ModuleInput A) :
    ∃ new, Appends m (addElement given f m).1 (addElement given f m).2 new := by
  cases h : m.find f with
  | none =>
    cases given with
    | single o =>
      simp only [addElement, h]
      have hnew := emplaceBack_appends (m := m.allocate [o]) h (some m.nextVector)
      exact ⟨_, fun hm => hnew.wellFormed (hm.allocate _), hnew.entries, rfl, fun _ => rfl⟩
    | shared os =>
      simp only [addElement, h]
      exact ⟨_, emplaceBack_appends h os⟩
  | some it =>
    cases given with
    | single o =>
      simp only [addElement, h]
      exact ⟨[], (SameEntries.addOrigin m it o).appends _⟩
    | shared os =>
      cases os with
      | none =>
        simp only [addElement, h]
        exact ⟨[], (SameEntries.refl m).appends _⟩
      | some os =>
        simp only [addElement, h]
        exact ⟨[], (SameEntries.addOrigins m it os).appends _⟩

/-- The result of several additions is that of the first one with a new entry. -/
theorem addSubformulas_appends {given : Given A} {fs : List (Formula A)}
    (ih : ∀ f ∈ fs, ∀ m, ∃ new, Appends m (add given f true m).1 (add given f true m).2 new)
    {m₀ : ModuleInput A} {res : Option Nat × Bool} {new : List (Nat × Formula A)}
    (h : Appends m₀ res m new) :
    ∃ new', Appends m₀ (addSubformulas given fs res m).1 (addSubformulas given fs res m).2 new' := by
  induction fs generalizing m res new with
  | nil => exact ⟨new, h⟩
  | cons f fs ihl =>
    rw [addSubformulas]
    obtain ⟨new₁, h₁⟩ := ih f mem_cons_self m
    suffices happ : Appends m₀ (if res.2 then res else (add given f true m).1)
        (add given f true m).2 (new ++ new₁) from
      ihl (fun g hg => ih g (mem_cons_of_mem f hg)) happ
    refine ⟨fun hm => h₁.wellFormed (h.wellFormed hm), ?_, ?_, ?_⟩
    · rw [h₁.entries, h.entries, append_assoc]
    · rw [h.added]
      cases new with
      | nil => simpa using h₁.added
      | cons e new => simpa using h.added
    · rw [h.added]
      cases new with
      | nil => simpa using h₁.first
      | cons e new => simpa using h.first

theorem add_appends (given : Given A) (f : Formula A) (b : Bool) (m : ModuleInput A) :
    ∃ new, Appends m (add given f b m).1 (add given f b m).2 new := by
  induction f using Formula.induction generalizing b m with
  | hconst c => cases b <;> exact addElement_appends given _ m
  | hatom a => cases b <;> exact addElement_appends given _ m
  | happ c fs ih =>
    cases b with
    | false => cases c <;> exact addElement_appends given _ m
    | true =>
      cases c with
      | and =>
        rw [add]
        have hstart : Appends m (none, false) m [] := (SameEntries.refl m).appends none
        exact addSubformulas_appends (fun f hf m => ih f hf true m) hstart
      | _ => exact addElement_appends given _ m

end ModuleInput

end Smtrat
