import Smtrat.Modules.ModuleInput

/-!
# Bookkeeping of origins

A formula should be stored as long as there is an origin that justifies it: one it was added with,
and no part of which has been removed since.  This is kept by removals whatever formulas share
their vectors of origins, and by additions of several origins, which are copied.  A single origin
is added in place: there it has to be assumed that no other formula points to the same vector.
-/

namespace Smtrat

open PropFormula List Function

universe u

namespace ModuleInput

variable {A : Type u}

/-! ## Well-formed lists -/

structure WellFormed (m : ModuleInput A) : Prop where
  position_lt : ∀ e ∈ m.elements, e.position < m.nextPosition
  positions_nodup : (m.elements.map (·.position)).Nodup
  find_iff : ∀ f it, m.find f = some it ↔ ∃ e ∈ m.elements, e.mFormula = f ∧ e.position = it

theorem empty_wellFormed : (empty : ModuleInput A).WellFormed :=
  ⟨nofun, nodup_nil, fun f it => by simp [empty, find]⟩

variable {e : FormulaWithOrigins A} {v it : Nat}

namespace WellFormed

variable {m : ModuleInput A} (hm : m.WellFormed)

include hm

variable {e' : FormulaWithOrigins A}

theorem eq_of_position (he : e ∈ m.elements) (he' : e' ∈ m.elements)
    (h : e.position = e'.position) : e = e' :=
  inj_on_of_nodup_map hm.positions_nodup he he' h

theorem find_of_mem (he : e ∈ m.elements) : m.find e.mFormula = some e.position :=
  (hm.find_iff _ _).mpr ⟨e, he, rfl, rfl⟩

theorem eq_of_formula (he : e ∈ m.elements) (he' : e' ∈ m.elements)
    (h : e.mFormula = e'.mFormula) : e = e' := by
  refine hm.eq_of_position he he' (Option.some.inj ?_)
  rw [← hm.find_of_mem he, h, hm.find_of_mem he']

theorem element_eq (he : e ∈ m.elements) : m.element e.position = some e := by
  cases h : m.element e.position with
  | none =>
    have := find?_eq_none.mp h e he
    simp at this
  | some e' =>
    have hp : e'.position = e.position := by simpa using find?_some h
    rw [hm.eq_of_position (mem_of_find?_eq_some h) he hp]

theorem pOrigins_eq (he : e ∈ m.elements) : m.pOrigins e.position = e.mOrigins := by
  rw [pOrigins, hm.element_eq he, Option.bind_some]

theorem contains_iff {f : Formula A} : m.contains f ↔ ∃ e ∈ m.elements, e.mFormula = f := by
  rw [contains, Option.isSome_iff_exists]
  constructor
  · rintro ⟨it, h⟩
    obtain ⟨e, he, hf, -⟩ := (hm.find_iff f it).mp h
    exact ⟨e, he, hf⟩
  · rintro ⟨e, he, rfl⟩
    exact ⟨_, hm.find_of_mem he⟩

theorem find_eq_none {f : Formula A} (h : m.find f = none)
    (he : e ∈ m.elements) : e.mFormula ≠ f := by
  rintro rfl
  rw [hm.find_of_mem he] at h
  cases h

/-! ### Operations -/

theorem allocate (os : List (Formula A)) : (m.allocate os).WellFormed :=
  ⟨hm.position_lt, hm.positions_nodup, hm.find_iff⟩

theorem setVector (v : Nat) (os : List (Formula A)) : (m.setVector v os).WellFormed :=
  ⟨hm.position_lt, hm.positions_nodup, hm.find_iff⟩

omit hm in
theorem mem_setOrigins {v : Option Nat} :
    e ∈ (m.setOrigins it v).elements ↔
      ∃ e' ∈ m.elements, e = if e'.position = it then { e' with mOrigins := v } else e' := by
  simp only [ModuleInput.setOrigins, mem_map, eq_comm]

theorem setOrigins (it : Nat) (v : Option Nat) : (m.setOrigins it v).WellFormed where
  position_lt := by
    intro e he
    obtain ⟨e', he', rfl⟩ := mem_setOrigins.mp he
    have := hm.position_lt e' he'
    split_ifs <;> exact this
  positions_nodup := by
    have h : (m.setOrigins it v).elements.map (·.position) = m.elements.map (·.position) := by
      rw [ModuleInput.setOrigins, map_map]
      refine map_congr_left fun e _ => ?_
      simp only [comp_apply]
      split_ifs <;> rfl
    rw [h]
    exact hm.positions_nodup
  find_iff := by
    intro f i
    refine (hm.find_iff f i).trans ⟨?_, ?_⟩
    · rintro ⟨e, he, hf, hp⟩
      refine ⟨_, mem_setOrigins.mpr ⟨e, he, rfl⟩, ?_⟩
      split_ifs <;> exact ⟨hf, hp⟩
    · rintro ⟨e, he, hf, hp⟩
      obtain ⟨e', he', rfl⟩ := mem_setOrigins.mp he
      refine ⟨e', he', ?_⟩
      split_ifs at hf hp <;> exact ⟨hf, hp⟩

variable [DecidableEq A]

omit hm in
theorem mem_emplaceBack {f : Formula A} {v : Option Nat} :
    e ∈ (m.emplaceBack f v).elements ↔ e ∈ m.elements ∨ e = ⟨m.nextPosition, f, v⟩ := by
  rw [ModuleInput.emplaceBack, mem_append, mem_singleton]

theorem emplaceBack {f : Formula A} (hf : m.find f = none) (v : Option Nat) :
    (m.emplaceBack f v).WellFormed where
  position_lt := by
    intro e he
    rcases mem_emplaceBack.mp he with he | rfl
    · exact Nat.lt_succ_of_lt (hm.position_lt e he)
    · exact Nat.lt_succ_self _
  positions_nodup := by
    simp only [ModuleInput.emplaceBack, map_append, map_cons, map_nil]
    refine nodup_append.mpr ⟨hm.positions_nodup, nodup_singleton _, ?_⟩
    intro i hi j hj
    obtain ⟨e, he, rfl⟩ := mem_map.mp hi
    rw [mem_singleton.mp hj]
    exact Nat.ne_of_lt (hm.position_lt e he)
  find_iff := by
    intro g it
    have hnew : (m.emplaceBack f v).find g = if g = f then some m.nextPosition else m.find g := by
      simp [ModuleInput.find, ModuleInput.emplaceBack, update_apply]
    simp only [hnew, mem_emplaceBack]
    by_cases hg : g = f
    · subst hg
      rw [if_pos rfl]
      constructor
      · intro h
        exact ⟨_, Or.inr rfl, rfl, Option.some.inj h⟩
      · rintro ⟨e, he | rfl, heg, rfl⟩
        · exact absurd heg (hm.find_eq_none hf he)
        · rfl
    · rw [if_neg hg, hm.find_iff]
      constructor
      · rintro ⟨e, he, h⟩
        exact ⟨e, Or.inl he, h⟩
      · rintro ⟨e, he | rfl, heg, h⟩
        · exact ⟨e, he, heg, h⟩
        · exact absurd heg.symm hg

theorem mem_erase (he : e ∈ m.elements) (hit : e.position = it) :
    e' ∈ (m.erase it).elements ↔ e' ∈ m.elements ∧ e'.position ≠ it := by
  subst hit
  rw [ModuleInput.erase, hm.element_eq he]
  simp

theorem erase (he : e ∈ m.elements) (hit : e.position = it) : (m.erase it).WellFormed where
  position_lt := by
    intro e' he'
    have hn : (m.erase it).nextPosition = m.nextPosition := by
      rw [ModuleInput.erase]
      cases m.element it <;> rfl
    rw [hn]
    exact hm.position_lt e' ((hm.mem_erase he hit).mp he').1
  positions_nodup := by
    subst hit
    rw [ModuleInput.erase, hm.element_eq he]
    exact hm.positions_nodup.sublist (filter_sublist.map _)
  find_iff := by
    intro g i
    have hnew : (m.erase it).find g = if g = e.mFormula then none else m.find g := by
      subst hit
      rw [ModuleInput.erase, hm.element_eq he]
      simp [ModuleInput.find, update_apply]
    simp only [hnew, hm.mem_erase he hit]
    by_cases hg : g = e.mFormula
    · rw [if_pos hg]
      refine ⟨nofun, ?_⟩
      rintro ⟨e', ⟨he', hne⟩, heg, -⟩
      have := hm.eq_of_formula he' he (heg.trans hg)
      exact absurd (this ▸ hit) hne
    · rw [if_neg hg, hm.find_iff]
      constructor
      · rintro ⟨e', he', heg, hp⟩
        refine ⟨e', ⟨he', fun h => hg ?_⟩, heg, hp⟩
        rw [← heg, hm.eq_of_position he' he (h.trans hit.symm)]
      · rintro ⟨e', ⟨he', -⟩, heg, hp⟩
        exact ⟨e', he', heg, hp⟩

omit hm in
/-- There is nothing to erase. -/
theorem erase_of_forall_ne (h : ∀ e ∈ m.elements, e.position ≠ it) : m.erase it = m := by
  rw [ModuleInput.erase, show m.element it = none from find?_eq_none.mpr
    fun e he hpos => h e he (of_decide_eq_true hpos)]

theorem erase_any (it : Nat) : (m.erase it).WellFormed := by
  by_cases hit : ∃ e ∈ m.elements, e.position = it
  · obtain ⟨e, he, hpos⟩ := hit
    exact hm.erase he hpos
  · rw [erase_of_forall_ne fun e he hpos => hit ⟨e, he, hpos⟩]
    exact hm

/-- All elements are erased, one after the other. -/
theorem foldl_erase (its : List ℕ) (hits : ∀ e ∈ m.elements, e.position ∈ its) :
    (its.foldl ModuleInput.erase m).WellFormed ∧ (its.foldl ModuleInput.erase m).elements = [] := by
  induction its generalizing m with
  | nil =>
    refine ⟨hm, eq_nil_iff_forall_not_mem.mpr fun e he => ?_⟩
    exact absurd (hits e he) not_mem_nil
  | cons it its ih =>
    rw [foldl_cons]
    by_cases hit : ∃ e ∈ m.elements, e.position = it
    · obtain ⟨e, he, hpos⟩ := hit
      refine ih (hm.erase he hpos) fun e' he' => ?_
      obtain ⟨he', hne⟩ := (hm.mem_erase he hpos).mp he'
      exact (mem_cons.mp (hits e' he')).resolve_left hne
    · rw [erase_of_forall_ne fun e he hpos => hit ⟨e, he, hpos⟩]
      exact ih hm fun e he => (mem_cons.mp (hits e he)).resolve_left fun hpos => hit ⟨e, he, hpos⟩

end WellFormed

/-! ## Relations between formulas and origins

What the lists and vectors stand for: which origins each formula has. -/

/-- `R f o` says that `f` has the origin `o`. -/
abbrev OriginRelation (A : Type u) := Formula A → Formula A → Prop

namespace OriginRelation

variable (R : OriginRelation A)

/-- The formula `f` gets the origins `os`. -/
def give (f : Formula A) (os : List (Formula A)) : OriginRelation A :=
  fun g o => R g o ∨ (g = f ∧ o ∈ os)

/-- The origins that vanish with `f` are lost. -/
def remove [DecidableEq A] (f : Formula A) : OriginRelation A :=
  fun g o => R g o ∧ hasPart o f = false

end OriginRelation

open OriginRelation

/-- The module input stores the formulas that have an origin, with these origins. -/
structure Represents (m : ModuleInput A) (R : OriginRelation A) : Prop where
  wellFormed : m.WellFormed
  origins : ∀ e ∈ m.elements, ∃ v, e.mOrigins = some v ∧ v < m.nextVector ∧
    ∀ o, o ∈ m.vectors v ↔ R e.mFormula o
  stored : ∀ f, m.contains f ↔ ∃ o, R f o

/-- No other formula points to the vector of origins that `f` points to. -/
def Unshared (m : ModuleInput A) (f : Formula A) : Prop :=
  ∀ e ∈ m.elements, e.mFormula = f → ∀ e' ∈ m.elements, e'.mOrigins = e.mOrigins → e' = e

instance [DecidableEq A] (m : ModuleInput A) (f : Formula A) : Decidable (m.Unshared f) :=
  inferInstanceAs (Decidable (∀ e ∈ m.elements, _ → ∀ e' ∈ m.elements, _ → _))

variable {o : Formula A}

namespace Represents

variable {m : ModuleInput A} {R : OriginRelation A} (hm : m.Represents R)

include hm

theorem mem_origins {f : Formula A} : o ∈ m.origins f ↔ R f o := by
  cases h : m.find f with
  | none =>
    have hf : ¬ ∃ o, R f o := fun hR => by
      have := (hm.stored f).mpr hR
      rw [contains, show m.mFormulaPositionMap f = none from h] at this
      cases this
    rw [ModuleInput.origins, h]
    exact ⟨nofun, fun ho => absurd ⟨o, ho⟩ hf⟩
  | some it =>
    obtain ⟨e, he, rfl, rfl⟩ := (hm.wellFormed.find_iff f it).mp h
    obtain ⟨v, hv, -, ho⟩ := hm.origins e he
    rw [ModuleInput.origins, hm.wellFormed.find_of_mem he, Option.bind_some, hm.wellFormed.pOrigins_eq he, hv]
    exact ho o

theorem no_origin {f : Formula A} (hf : m.find f = none) (o : Formula A) : ¬ R f o := by
  intro hR
  have := (hm.stored f).mpr ⟨o, hR⟩
  rw [contains, show m.mFormulaPositionMap f = none from hf] at this
  cases this

theorem allocate (os : List (Formula A)) : (m.allocate os).Represents R where
  wellFormed := hm.wellFormed.allocate os
  origins := by
    intro e he
    obtain ⟨v, hv, hlt, ho⟩ := hm.origins e he
    refine ⟨v, hv, Nat.lt_succ_of_lt hlt, fun o => ?_⟩
    have hne : (m.allocate os).vectors v = m.vectors v :=
      update_of_ne (Nat.ne_of_lt hlt) _ _
    rw [hne]
    exact ho o
  stored := hm.stored

/-- An element is made to point to a vector with further origins. -/
theorem setOrigins (he : e ∈ m.elements) (hv : v < m.nextVector) {os : List (Formula A)}
    (ho : ∀ o, o ∈ m.vectors v ↔ R e.mFormula o ∨ o ∈ os) :
    (m.setOrigins e.position (some v)).Represents (give R e.mFormula os) where
  wellFormed := hm.wellFormed.setOrigins _ _
  origins := by
    intro e' he'
    obtain ⟨e₁, he₁, rfl⟩ := WellFormed.mem_setOrigins.mp he'
    split_ifs with hp
    · obtain rfl := hm.wellFormed.eq_of_position he₁ he hp
      refine ⟨v, rfl, hv, fun o => (ho o).trans ?_⟩
      rw [give]
      exact or_congr_right (and_iff_right rfl).symm
    · obtain ⟨w, hw, hlt, ho₁⟩ := hm.origins e₁ he₁
      refine ⟨w, hw, hlt, fun o => (ho₁ o).trans ⟨Or.inl, ?_⟩⟩
      rintro (h | ⟨h, -⟩)
      · exact h
      · exact absurd (congrArg _ (hm.wellFormed.eq_of_formula he₁ he h)) hp
  stored := by
    intro f
    refine (hm.stored f).trans ⟨fun ⟨o, h⟩ => ⟨o, Or.inl h⟩, ?_⟩
    rintro ⟨o, h | ⟨rfl, -⟩⟩
    · exact ⟨o, h⟩
    · exact (hm.stored _).mp (hm.wellFormed.contains_iff.mpr ⟨e, he, rfl⟩)

/-- An origin is added in place, for a formula that does not share its vector. -/
theorem setVector (he : e ∈ m.elements)
    (hu : m.Unshared e.mFormula) (hv : e.mOrigins = some v) (o : Formula A) :
    (m.setVector v (m.vectors v ++ [o])).Represents (give R e.mFormula [o]) where
  wellFormed := hm.wellFormed.setVector _ _
  origins := by
    intro e' he'
    obtain ⟨w, hw, hlt, ho⟩ := hm.origins e' he'
    refine ⟨w, hw, hlt, fun o' => ?_⟩
    by_cases hvw : w = v
    · subst hvw
      obtain rfl := hu e he rfl e' he' (hw.trans hv.symm)
      have hself : (m.setVector w (m.vectors w ++ [o])).vectors w = m.vectors w ++ [o] :=
        update_self _ _ _
      rw [hself, mem_append, ho, give]
      exact or_congr_right (and_iff_right rfl).symm
    · have hne : (m.setVector v (m.vectors v ++ [o])).vectors w = m.vectors w :=
        update_of_ne hvw _ _
      rw [hne, ho]
      refine ⟨Or.inl, ?_⟩
      rintro (h | ⟨h, -⟩)
      · exact h
      · obtain rfl := hm.wellFormed.eq_of_formula he' he h
        exact absurd (Option.some.inj (hw.symm.trans hv)) hvw
  stored := by
    intro f
    refine (hm.stored f).trans ⟨fun ⟨o, h⟩ => ⟨o, Or.inl h⟩, ?_⟩
    rintro ⟨o, h | ⟨rfl, -⟩⟩
    · exact ⟨o, h⟩
    · exact (hm.stored _).mp (hm.wellFormed.contains_iff.mpr ⟨e, he, rfl⟩)

variable [DecidableEq A]

/-- A new formula points to a vector that contains an origin. -/
theorem emplaceBack {f : Formula A} (hf : m.find f = none) (hv : v < m.nextVector)
    (hne : m.vectors v ≠ []) : (m.emplaceBack f (some v)).Represents (give R f (m.vectors v)) where
  wellFormed := hm.wellFormed.emplaceBack hf _
  origins := by
    intro e he
    rcases WellFormed.mem_emplaceBack.mp he with he | rfl
    · obtain ⟨w, hw, hlt, ho⟩ := hm.origins e he
      refine ⟨w, hw, hlt, fun o => (ho o).trans ⟨Or.inl, ?_⟩⟩
      rintro (h | ⟨h, -⟩)
      · exact h
      · exact absurd h (hm.wellFormed.find_eq_none hf he)
    · refine ⟨v, rfl, hv, fun o => ⟨fun h => Or.inr ⟨rfl, h⟩, ?_⟩⟩
      rintro (h | ⟨-, h⟩)
      · exact absurd h (hm.no_origin hf o)
      · exact h
  stored := by
    intro g
    rw [(hm.wellFormed.emplaceBack hf _).contains_iff]
    constructor
    · rintro ⟨e, he, rfl⟩
      rcases WellFormed.mem_emplaceBack.mp he with he | rfl
      · obtain ⟨o, ho⟩ := (hm.stored _).mp (hm.wellFormed.contains_iff.mpr ⟨e, he, rfl⟩)
        exact ⟨o, Or.inl ho⟩
      · obtain ⟨o, ho⟩ := exists_mem_of_ne_nil _ hne
        exact ⟨o, Or.inr ⟨rfl, ho⟩⟩
    · rintro ⟨o, ho | ⟨rfl, -⟩⟩
      · obtain ⟨e, he, heg⟩ := hm.wellFormed.contains_iff.mp ((hm.stored g).mpr ⟨o, ho⟩)
        exact ⟨e, WellFormed.mem_emplaceBack.mpr (Or.inl he), heg⟩
      · exact ⟨_, WellFormed.mem_emplaceBack.mpr (Or.inr rfl), rfl⟩

end Represents

/-! ## Additions -/

mutual

/-- The formulas a formula is stored as. -/
def conjuncts : Formula A → List (Formula A)
  | .app .and fs => conjunctsAll fs
  | f => [f]

def conjunctsAll : List (Formula A) → List (Formula A)
  | [] => []
  | f :: fs => conjuncts f ++ conjunctsAll fs

end

variable {fs : List (Formula A)} {g : Formula A}

@[simp] theorem mem_conjunctsAll : g ∈ conjunctsAll fs ↔ ∃ f ∈ fs, g ∈ conjuncts f := by
  induction fs with
  | nil => simp [conjunctsAll]
  | cons f fs ih => simp [conjunctsAll, ih]

/-- The conjuncts hold together if and only if the formula does. -/
theorem forall_conjuncts_eval {α : A → Bool} {f : Formula A} :
    (∀ g ∈ conjuncts f, g.eval α = true) ↔ f.eval α = true := by
  induction f using Formula.induction with
  | hconst b => simp [conjuncts]
  | hatom a => simp [conjuncts]
  | happ c fs ih =>
    cases c with
    | and =>
      rw [conjuncts, Formula.eval_app, Connective.eval_and, all_map, all_eq_true]
      simp only [mem_conjunctsAll, comp_apply, id_eq]
      constructor
      · intro h f hf
        exact (ih f hf).mp fun g hg => h g ⟨f, hf, hg⟩
      · rintro h g ⟨f, hf, hg⟩
        exact (ih f hf).mpr (h f hf) g hg
    | _ => simp [conjuncts]

theorem exists_conjuncts_mentions {a : A} {f : Formula A} :
    (∃ g ∈ conjuncts f, g.Mentions a) ↔ f.Mentions a := by
  induction f using Formula.induction with
  | hconst b => simp [conjuncts]
  | hatom b => simp [conjuncts]
  | happ c fs ih =>
    cases c with
    | and =>
      rw [conjuncts, Formula.mentions_app]
      constructor
      · rintro ⟨g, hg, ha⟩
        obtain ⟨f, hf, hg⟩ := mem_conjunctsAll.mp hg
        exact ⟨f, hf, (ih f hf).mp ⟨g, hg, ha⟩⟩
      · rintro ⟨f, hf, ha⟩
        obtain ⟨g, hg, ha⟩ := (ih f hf).mpr ha
        exact ⟨g, mem_conjunctsAll.mpr ⟨f, hf, hg⟩, ha⟩
    | _ => simp [conjuncts]

/-- The formulas that `add` stores. -/
def parts (f : Formula A) (mightBeConjunction : Bool) : List (Formula A) :=
  if mightBeConjunction then conjuncts f else [f]

variable [DecidableEq A]

/-- Additions one after the other. -/
def addElements (given : Given A) (fs : List (Formula A)) (m : ModuleInput A) : ModuleInput A :=
  fs.foldl (fun m f => (addElement given f m).2) m

theorem addElements_append (given : Given A) (fs gs : List (Formula A)) (m : ModuleInput A) :
    addElements given (fs ++ gs) m = addElements given gs (addElements given fs m) :=
  foldl_append

theorem addSubformulas_snd {given : Given A}
    (ih : ∀ f ∈ fs, ∀ m, (add given f true m).2 = addElements given (conjuncts f) m)
    (res : Option Nat × Bool) (m : ModuleInput A) :
    (addSubformulas given fs res m).2 = addElements given (conjunctsAll fs) m := by
  induction fs generalizing res m with
  | nil => rfl
  | cons f fs ihl =>
    rw [addSubformulas, conjunctsAll, addElements_append, ← ih f mem_cons_self]
    exact ihl (fun g hg => ih g (mem_cons_of_mem f hg)) _ _

theorem add_snd_true (given : Given A) (f : Formula A) (m : ModuleInput A) :
    (add given f true m).2 = addElements given (conjuncts f) m := by
  induction f using Formula.induction generalizing m with
  | hconst b => rfl
  | hatom a => rfl
  | happ c fs ih =>
    cases c with
    | and =>
      rw [add, conjuncts]
      exact addSubformulas_snd ih _ m
    | _ => rfl

/-- An addition stores the parts of the formula. -/
theorem add_snd (given : Given A) (f : Formula A) (b : Bool) (m : ModuleInput A) :
    (add given f b m).2 = addElements given (parts f b) m := by
  cases b with
  | true => exact add_snd_true given f m
  | false =>
    cases f with
    | const b => rfl
    | atom a => rfl
    | app c fs => cases c <;> rfl

section Cases

variable {m : ModuleInput A} {f : Formula A}

theorem addElement_single_of_none (h : m.find f = none) (o : Formula A) :
    addElement (.single o) f m
      = ((some m.nextPosition, true), (m.allocate [o]).emplaceBack f (some m.nextVector)) := by
  simp only [addElement, h]

theorem addElement_single_of_some (h : m.find f = some it)
    (hv : m.pOrigins it = some v) (o : Formula A) :
    addElement (.single o) f m = ((some it, false), m.setVector v (m.vectors v ++ [o])) := by
  simp only [addElement, h, addOrigin, hv]

theorem addElement_shared_of_none (h : m.find f = none) (os : Option Nat) :
    addElement (.shared os) f m = ((some m.nextPosition, true), m.emplaceBack f os) := by
  simp only [addElement, h]

theorem addElement_shared_of_some (h : m.find f = some it)
    (hv : m.pOrigins it = some v) (os : Nat) :
    addElement (.shared (some os)) f m = ((some it, false),
      (m.allocate (m.vectors v ++ m.vectors os)).setOrigins it (some m.nextVector)) := by
  simp only [addElement, h, addOrigins, hv]

end Cases

namespace Represents

variable {m : ModuleInput A} {R : OriginRelation A}

omit [DecidableEq A] in
theorem congr (hm : m.Represents R) {R' : OriginRelation A} (h : ∀ f o, R f o ↔ R' f o) :
    m.Represents R' := by
  obtain rfl : R = R' := funext fun f => funext fun o => propext (h f o)
  exact hm

theorem addElement_single (hm : m.Represents R) {f : Formula A} (hu : m.Unshared f)
    (o : Formula A) : (addElement (.single o) f m).2.Represents (give R f [o]) := by
  cases h : m.find f with
  | none =>
    have hv : (m.allocate [o]).vectors m.nextVector = [o] := update_self _ _ _
    have hnew := (hm.allocate [o]).emplaceBack h (v := m.nextVector) (Nat.lt_succ_self _)
      (by rw [hv]; exact cons_ne_nil _ _)
    rw [addElement_single_of_none h]
    rwa [hv] at hnew
  | some it =>
    obtain ⟨e, he, rfl, rfl⟩ := (hm.wellFormed.find_iff f it).mp h
    obtain ⟨v, hv, -, -⟩ := hm.origins e he
    rw [addElement_single_of_some h ((hm.wellFormed.pOrigins_eq he).trans hv)]
    exact hm.setVector he hu hv o

/-- A formula that shares its vector with no other formula still does so after an addition. -/
theorem unshared_addElement (hm : m.Represents R) (f o : Formula A)
    (hg : m.Unshared g) : (addElement (.single o) f m).2.Unshared g := by
  cases h : m.find f with
  | none =>
    have hold : ∀ e ∈ m.elements, e.mOrigins ≠ some m.nextVector := fun e he hv => by
      obtain ⟨v, hv', hlt, -⟩ := hm.origins e he
      exact absurd (Option.some.inj (hv'.symm.trans hv)) (Nat.ne_of_lt hlt)
    rw [addElement_single_of_none h]
    intro e he heg e' he' hv
    rcases WellFormed.mem_emplaceBack.mp he with he | rfl <;>
      rcases WellFormed.mem_emplaceBack.mp he' with he' | rfl
    · exact hg e he heg e' he' hv
    · exact absurd hv.symm (hold e he)
    · exact absurd hv (hold e' he')
    · rfl
  | some it =>
    obtain ⟨e, he, rfl, rfl⟩ := (hm.wellFormed.find_iff f it).mp h
    obtain ⟨v, hv, -, -⟩ := hm.origins e he
    rw [addElement_single_of_some h ((hm.wellFormed.pOrigins_eq he).trans hv)]
    exact hg

theorem addElement_shared (hm : m.Represents R) (f : Formula A) (hv : v < m.nextVector)
    (hne : m.vectors v ≠ []) :
    (addElement (.shared (some v)) f m).2.Represents (give R f (m.vectors v)) := by
  cases h : m.find f with
  | none =>
    rw [addElement_shared_of_none h]
    exact hm.emplaceBack h hv hne
  | some it =>
    obtain ⟨e, he, rfl, rfl⟩ := (hm.wellFormed.find_iff f it).mp h
    obtain ⟨w, hw, -, ho⟩ := hm.origins e he
    rw [addElement_shared_of_some h ((hm.wellFormed.pOrigins_eq he).trans hw)]
    refine (hm.allocate _).setOrigins he (Nat.lt_succ_self _) fun o => ?_
    have hself : (m.allocate (m.vectors w ++ m.vectors v)).vectors m.nextVector
        = m.vectors w ++ m.vectors v := update_self _ _ _
    rw [hself, mem_append, ho]

/-- Vectors given as origins are not changed. -/
theorem vectors_addElement (hm : m.Represents R) (f : Formula A) (hv : v < m.nextVector) :
    (addElement (.shared (some v)) f m).2.vectors v = m.vectors v ∧
      v < (addElement (.shared (some v)) f m).2.nextVector := by
  cases h : m.find f with
  | none =>
    rw [addElement_shared_of_none h]
    exact ⟨rfl, hv⟩
  | some it =>
    obtain ⟨e, he, rfl, rfl⟩ := (hm.wellFormed.find_iff f it).mp h
    obtain ⟨w, hw, -, -⟩ := hm.origins e he
    rw [addElement_shared_of_some h ((hm.wellFormed.pOrigins_eq he).trans hw)]
    exact ⟨update_of_ne (Nat.ne_of_lt hv) _ _, Nat.lt_succ_of_lt hv⟩

end Represents

/-- The formulas `fs` get the origins `os`. -/
def OriginRelation.giveAll (R : OriginRelation A) (fs os : List (Formula A)) : OriginRelation A :=
  fun g o => R g o ∨ (g ∈ fs ∧ o ∈ os)

theorem giveAll_give (R : OriginRelation A) (f : Formula A) (fs os : List (Formula A))
    (g o : Formula A) : giveAll (give R f os) fs os g o ↔ giveAll R (f :: fs) os g o := by
  simp only [giveAll, give, mem_cons]
  tauto

namespace Represents

variable {m : ModuleInput A} {R : OriginRelation A}

theorem addElements_single (hm : m.Represents R) (hu : ∀ f ∈ fs, m.Unshared f) (o : Formula A) :
    (addElements (.single o) fs m).Represents (giveAll R fs [o]) := by
  induction fs generalizing m R with
  | nil => exact hm.congr fun g o' => by simp [giveAll]
  | cons f fs ih =>
    have hf := hm.addElement_single (hu f mem_cons_self) o
    have hfs := fun g hg => hm.unshared_addElement f o (hu g (mem_cons_of_mem f hg))
    exact (ih hf hfs).congr (giveAll_give R f fs [o])

theorem unshared_addElements (hm : m.Represents R)
    (hu : ∀ f, m.Unshared f) (o g : Formula A) : (addElements (.single o) fs m).Unshared g := by
  induction fs generalizing m R with
  | nil => exact hu g
  | cons f fs ih =>
    exact ih (hm.addElement_single (hu f) o) fun g => hm.unshared_addElement f o (hu g)

theorem addElements_shared (hm : m.Represents R) (hv : v < m.nextVector) (hne : m.vectors v ≠ []) :
    (addElements (.shared (some v)) fs m).Represents (giveAll R fs (m.vectors v)) := by
  induction fs generalizing m R with
  | nil => exact hm.congr fun g o' => by simp [giveAll]
  | cons f fs ih =>
    obtain ⟨hsame, hlt⟩ := hm.vectors_addElement f hv
    have hf := hm.addElement_shared f hv hne
    have hfs := ih hf hlt (hsame ▸ hne)
    rw [hsame] at hfs
    exact hfs.congr (giveAll_give R f fs _)

end Represents

/-! ### What is stored

An addition stores the formulas whatever origins there are. -/

namespace WellFormed

variable {m : ModuleInput A}

omit [DecidableEq A] in
theorem formulas_setOrigins (it : Nat) (v : Option Nat) :
    (m.setOrigins it v).formulas = m.formulas := by
  rw [formulas, formulas, ModuleInput.setOrigins, map_map]
  refine map_congr_left fun e _ => ?_
  rw [comp_apply]
  split_ifs <;> rfl

theorem mem_formulas_emplaceBack {f : Formula A} {v : Option Nat} :
    g ∈ (m.emplaceBack f v).formulas ↔ g ∈ m.formulas ∨ g = f := by
  simp [formulas, ModuleInput.emplaceBack, eq_comm]

/-- The origins of a stored formula change, and nothing else. -/
theorem addElement_of_some (hm : m.WellFormed) (given : Given A) {f : Formula A}
    (h : m.find f = some it) : (addElement given f m).2.WellFormed ∧
      (addElement given f m).2.formulas = m.formulas := by
  cases given with
  | single o =>
    simp only [addElement, h, addOrigin]
    split
    · exact ⟨(hm.allocate _).setOrigins _ _, formulas_setOrigins _ _⟩
    · exact ⟨hm.setVector _ _, rfl⟩
  | shared os =>
    cases os with
    | none =>
      simp only [addElement, h]
      exact ⟨hm, trivial⟩
    | some os =>
      simp only [addElement, h, addOrigins]
      split
      · exact ⟨hm.setOrigins _ _, formulas_setOrigins _ _⟩
      · exact ⟨(hm.allocate _).setOrigins _ _, formulas_setOrigins _ _⟩

theorem addElement (hm : m.WellFormed) (given : Given A) (f : Formula A) :
    (addElement given f m).2.WellFormed ∧
      ∀ g, g ∈ (ModuleInput.addElement given f m).2.formulas ↔ g ∈ m.formulas ∨ g = f := by
  cases h : m.find f with
  | none =>
    cases given with
    | single o =>
      rw [addElement_single_of_none h]
      exact ⟨(hm.allocate _).emplaceBack h _, fun g => mem_formulas_emplaceBack⟩
    | shared os =>
      rw [addElement_shared_of_none h]
      exact ⟨hm.emplaceBack h _, fun g => mem_formulas_emplaceBack⟩
  | some it =>
    obtain ⟨hwf, hforms⟩ := hm.addElement_of_some given h
    obtain ⟨e, he, rfl, -⟩ := (hm.find_iff f it).mp h
    refine ⟨hwf, fun g => ?_⟩
    rw [hforms]
    exact ⟨Or.inl, fun hg => hg.elim id fun heq => heq ▸ mem_map_of_mem he⟩

theorem add (hm : m.WellFormed) (given : Given A) (f : Formula A) :
    (add given f true m).2.WellFormed ∧
      ∀ g, g ∈ (ModuleInput.add given f true m).2.formulas ↔ g ∈ m.formulas ∨ g ∈ conjuncts f := by
  rw [add_snd_true]
  generalize conjuncts f = fs
  induction fs generalizing m with
  | nil => exact ⟨hm, fun g => by simp [addElements]⟩
  | cons f fs ih =>
    obtain ⟨hwf, hmem⟩ := hm.addElement given f
    obtain ⟨hwf', hmem'⟩ := ih hwf
    refine ⟨hwf', fun g => (hmem' g).trans ?_⟩
    rw [hmem, mem_cons, or_assoc]

end WellFormed

/-! ## Removals -/

/-- The loop removes exactly the origins that vanish with `f`, though it reorders the others. -/
theorem mem_removeParts {f : Formula A} {n : Nat} {origs : List (Formula A)}
    (hn : origs.length ≤ n) :
    o ∈ removeParts f n origs ↔ o ∈ origs ∧ hasPart o f = false := by
  induction n generalizing origs with
  | zero =>
    obtain rfl := length_eq_zero_iff.mp (Nat.le_zero.mp hn)
    simp [removeParts]
  | succ n ih =>
    cases origs with
    | nil => simp [removeParts]
    | cons x origs =>
      have hn : origs.length ≤ n := Nat.le_of_succ_le_succ hn
      rw [removeParts, mem_cons]
      split_ifs with hx
      · have hox : o = x → hasPart o f = true := fun h => h ▸ hx
        split
        case h_1 back hb =>
          have hmem : o ∈ back :: origs.dropLast ↔ o ∈ origs := by
            rw [← dropLast_append_getLast? back hb]
            simp [or_comm]
          have hlen : (back :: origs.dropLast).length ≤ n := by
            have : origs ≠ [] := by
              rintro rfl
              cases hb
            have := length_pos_iff.mpr this
            rw [length_cons, length_dropLast]
            omega
          rw [ih hlen, hmem]
          constructor
          · exact fun h => ⟨Or.inr h.1, h.2⟩
          · rintro ⟨h | h, hf⟩
            · rw [hox h] at hf
              cases hf
            · exact ⟨h, hf⟩
        case h_2 hb =>
          rw [getLast?_eq_none_iff.mp hb]
          refine ⟨nofun, ?_⟩
          rintro ⟨h | h, hf⟩
          · rw [hox h] at hf
            cases hf
          · cases h
      · rw [mem_cons, ih hn]
        constructor
        · rintro (rfl | h)
          · exact ⟨Or.inl rfl, by simpa using hx⟩
          · exact ⟨Or.inr h.1, h.2⟩
        · rintro ⟨h | h, hf⟩
          · exact Or.inl h
          · exact Or.inr ⟨h, hf⟩

/-- The origins at `v` that are left when `f` is removed. -/
def cleaned (m : ModuleInput A) (f : Formula A) (v : Nat) : List (Formula A) :=
  removeParts f (m.vectors v).length (m.vectors v)

theorem WellFormed.removeFrom {m : ModuleInput A} (hm : m.WellFormed) (f : Formula A) (it : Nat) :
    (removeFrom f m it).WellFormed := by
  have horig : (m.removeOrigin it f).2.WellFormed := by
    simp only [removeOrigin]
    split
    · exact hm
    · split_ifs
      · exact (hm.setVector _ _).setOrigins _ _
      · exact hm.setVector _ _
  simp only [ModuleInput.removeFrom]
  split_ifs
  · exact horig.erase_any it
  · exact horig

theorem WellFormed.removeReceived {m : ModuleInput A} (hm : m.WellFormed) (f : Formula A) :
    (m.removeReceived f).WellFormed := by
  rw [ModuleInput.removeReceived]
  generalize m.elements.map (·.position) = its
  induction its generalizing m with
  | nil => exact hm
  | cons it its ih => exact ih (hm.removeFrom f it)

/-- A turn of the loop cleans a vector and erases its formula if nothing is left. -/
theorem removeFrom_eq {m : ModuleInput A} (hm : m.WellFormed)
    (he : e ∈ m.elements) (hv : e.mOrigins = some v) (f : Formula A) :
    (removeFrom f m e.position).WellFormed ∧ (∀ e', e' ∈ (removeFrom f m e.position).elements ↔
        e' ∈ m.elements ∧ (e' = e → m.cleaned f v ≠ [])) ∧
      (removeFrom f m e.position).vectors = update m.vectors v (m.cleaned f v) ∧
      (removeFrom f m e.position).nextVector = m.nextVector := by
  have hclean : (m.setVector v (m.cleaned f v)).WellFormed := hm.setVector _ _
  by_cases hnil : m.cleaned f v = []
  · have hs : removeFrom f m e.position
        = ((m.setVector v (m.cleaned f v)).setOrigins e.position none).erase e.position := by
      rw [cleaned] at hnil ⊢
      simp [removeFrom, removeOrigin, hm.pOrigins_eq he, hv, hnil]
    have hset := hclean.setOrigins e.position none
    have hmem : { e with mOrigins := none }
        ∈ ((m.setVector v (m.cleaned f v)).setOrigins e.position none).elements :=
      WellFormed.mem_setOrigins.mpr ⟨e, he, by rw [if_pos rfl]⟩
    have herase := hset.erase hmem rfl
    rw [hs]
    refine ⟨herase, fun e' => ?_, ?_, ?_⟩
    · rw [hset.mem_erase hmem rfl, WellFormed.mem_setOrigins]
      constructor
      · rintro ⟨⟨e₁, he₁, rfl⟩, hp⟩
        split_ifs at hp ⊢ with h
        · exact absurd h hp
        · exact ⟨he₁, fun hee => absurd (congrArg _ hee) hp⟩
      · rintro ⟨he', hee⟩
        have hp : e'.position ≠ e.position := fun h =>
          hee (hm.eq_of_position he' he h) hnil
        exact ⟨⟨e', he', by rw [if_neg hp]⟩, hp⟩
    · rw [ModuleInput.erase, hset.element_eq hmem]
      rfl
    · rw [ModuleInput.erase, hset.element_eq hmem]
      rfl
  · have hs : removeFrom f m e.position = m.setVector v (m.cleaned f v) := by
      rw [cleaned] at hnil ⊢
      simp [removeFrom, removeOrigin, hm.pOrigins_eq he, hv, hnil]
    rw [hs]
    exact ⟨hclean, fun e' => (and_iff_left fun _ => hnil).symm, rfl, rfl⟩

/-- The state of the loop when the elements at `done` have been visited. -/
structure Cleaned (f : Formula A) (m : ModuleInput A) (done : List Nat) (m' : ModuleInput A) :
    Prop where
  wellFormed : m'.WellFormed
  elements : ∀ e, e ∈ m'.elements ↔ e ∈ m.elements ∧ (e.position ∈ done →
    ∀ v, e.mOrigins = some v → ∃ o ∈ m.vectors v, hasPart o f = false)
  vectors : ∀ v o, o ∈ m'.vectors v ↔ o ∈ m.vectors v ∧
    ((∃ e ∈ m.elements, e.position ∈ done ∧ e.mOrigins = some v) → hasPart o f = false)
  nextVector : m'.nextVector = m.nextVector

theorem Cleaned.step {f : Formula A} {m m' : ModuleInput A} {done : List Nat}
    (hm : m.WellFormed) (h : Cleaned f m done m')
    (he : e ∈ m.elements) (hnew : e.position ∉ done) (hv : e.mOrigins = some v) :
    Cleaned f m (e.position :: done) (removeFrom f m' e.position) := by
  have he' : e ∈ m'.elements := (h.elements e).mpr ⟨he, fun hd => absurd hd hnew⟩
  obtain ⟨hwf, helts, hvectors, hnext⟩ := removeFrom_eq h.wellFormed he' hv f
  have hclean : ∀ o, o ∈ m'.cleaned f v ↔ o ∈ m.vectors v ∧ hasPart o f = false := by
    intro o
    rw [cleaned, mem_removeParts (Nat.le_refl _), h.vectors]
    exact ⟨fun ho => ⟨ho.1.1, ho.2⟩, fun ho => ⟨⟨ho.1, fun _ => ho.2⟩, ho.2⟩⟩
  refine ⟨hwf, fun e₁ => ?_, fun w o => ?_, hnext.trans h.nextVector⟩
  · rw [helts, h.elements, and_assoc]
    refine and_congr_right fun he₁ => ?_
    by_cases hee : e₁ = e
    · subst hee
      have hleft : m'.cleaned f v ≠ [] ↔ ∃ o ∈ m.vectors v, hasPart o f = false := by
        constructor
        · intro hne
          obtain ⟨o, ho⟩ := exists_mem_of_ne_nil _ hne
          exact ⟨o, (hclean o).mp ho⟩
        · rintro ⟨o, ho⟩
          exact ne_nil_of_mem ((hclean o).mpr ho)
      simp [hnew, hv, hleft]
    · have hp : e₁.position ≠ e.position := fun hp => hee (hm.eq_of_position he₁ he hp)
      simp [hee, hp]
  · rw [hvectors]
    by_cases hvw : w = v
    · subst hvw
      rw [update_self, hclean]
      refine and_congr_right fun _ => ⟨fun ho _ => ho, fun ho => ho ?_⟩
      exact ⟨e, he, mem_cons_self, hv⟩
    · rw [update_of_ne hvw, h.vectors]
      refine and_congr_right fun _ => ⟨fun ho => ?_, fun ho => ?_⟩
      · rintro ⟨e₁, he₁, hd, hw⟩
        rcases mem_cons.mp hd with hd | hd
        · rw [hm.eq_of_position he₁ he hd, hv] at hw
          exact absurd (Option.some.inj hw).symm hvw
        · exact ho ⟨e₁, he₁, hd, hw⟩
      · rintro ⟨e₁, he₁, hd, hw⟩
        exact ho ⟨e₁, he₁, mem_cons_of_mem _ hd, hw⟩

theorem Cleaned.foldl {f : Formula A} {m m' : ModuleInput A} {done : List Nat}
    (hm : m.WellFormed) (h : Cleaned f m done m')
    (hpts : ∀ e ∈ m.elements, ∃ v, e.mOrigins = some v) {rest : List Nat}
    (hrest : ∀ i ∈ rest, ∃ e ∈ m.elements, e.position = i) (hnodup : (done ++ rest).Nodup) :
    Cleaned f m (rest.reverse ++ done) (rest.foldl (removeFrom f) m') := by
  induction rest generalizing m' done with
  | nil => exact h
  | cons i rest ih =>
    obtain ⟨e, he, rfl⟩ := hrest i mem_cons_self
    obtain ⟨v, hv⟩ := hpts e he
    have hnew : e.position ∉ done := fun hd =>
      disjoint_of_nodup_append hnodup hd mem_cons_self
    have hstep := h.step hm he hnew hv
    have hnodup' : (e.position :: done ++ rest).Nodup :=
      (perm_middle.nodup_iff).mp hnodup
    have := ih hstep (fun i hi => hrest i (mem_cons_of_mem _ hi)) hnodup'
    rwa [reverse_cons, append_assoc, singleton_append, foldl_cons]

namespace Represents

variable {m : ModuleInput A} {R : OriginRelation A}

theorem cleaned (hm : m.Represents R) (f : Formula A) :
    Cleaned f m (m.elements.map (·.position)).reverse (m.removeReceived f) := by
  have hpts : ∀ e ∈ m.elements, ∃ v, e.mOrigins = some v := fun e he => by
    obtain ⟨v, hv, -⟩ := hm.origins e he
    exact ⟨v, hv⟩
  have hstart : Cleaned f m [] m :=
    ⟨hm.wellFormed, fun e => by simp, fun v o => by simp, rfl⟩
  have h : Cleaned f m ((m.elements.map (·.position)).reverse ++ []) (m.removeReceived f) :=
    hstart.foldl hm.wellFormed hpts (fun i hi => mem_map.mp hi) hm.wellFormed.positions_nodup
  rwa [append_nil] at h

/-- The elements that keep an origin stay. -/
theorem mem_removeReceived (hm : m.Represents R) {f : Formula A} :
    e ∈ (m.removeReceived f).elements ↔ e ∈ m.elements ∧ ∃ o, R.remove f e.mFormula o := by
  refine ((hm.cleaned f).elements e).trans (and_congr_right fun he => ?_)
  obtain ⟨v, hv, -, ho⟩ := hm.origins e he
  constructor
  · intro hd
    obtain ⟨o, hov, hof⟩ := hd (mem_reverse.mpr (mem_map_of_mem he)) v hv
    exact ⟨o, (ho o).mp hov, hof⟩
  · rintro ⟨o, hR, hof⟩ - w hw
    obtain rfl := Option.some.inj (hv.symm.trans hw)
    exact ⟨o, (ho o).mpr hR, hof⟩

/-- When a formula is no longer received, the origins that vanish with it do so everywhere, and
the formulas without an origin are erased. -/
theorem removeReceived (hm : m.Represents R) (f : Formula A) :
    (m.removeReceived f).Represents (R.remove f) := by
  have h := hm.cleaned f
  refine ⟨h.wellFormed, fun e he => ?_, fun g => ?_⟩
  · have he := (hm.mem_removeReceived.mp he).1
    obtain ⟨v, hv, hlt, ho⟩ := hm.origins e he
    refine ⟨v, hv, h.nextVector ▸ hlt, fun o => ?_⟩
    rw [h.vectors, ho]
    exact and_congr_right fun _ =>
      ⟨fun hd => hd ⟨e, he, mem_reverse.mpr (mem_map_of_mem he), hv⟩, fun hof _ => hof⟩
  · rw [h.wellFormed.contains_iff]
    constructor
    · rintro ⟨e, he, rfl⟩
      exact (hm.mem_removeReceived.mp he).2
    · rintro ⟨o, ho⟩
      obtain ⟨e, he, rfl⟩ := hm.wellFormed.contains_iff.mp ((hm.stored g).mpr ⟨o, ho.1⟩)
      exact ⟨e, hm.mem_removeReceived.mpr ⟨he, o, ho⟩, rfl⟩

theorem unshared_removeReceived (hm : m.Represents R) (f : Formula A)
    (hg : m.Unshared g) : (m.removeReceived f).Unshared g := by
  intro e he heg e' he' hv
  exact hg e (hm.mem_removeReceived.mp he).1 heg e' (hm.mem_removeReceived.mp he').1 hv

end Represents

end ModuleInput

end Smtrat
