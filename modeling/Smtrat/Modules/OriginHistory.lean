import Smtrat.Modules.OriginBookkeeping

/-!
# Histories of module inputs

The origins of a formula are determined by what happened before: it was added with an origin, and
no part of the origin has been removed since.  A run of additions and removals keeps to this as
long as a single origin is never added in place to a vector that other formulas point to.
-/

namespace Smtrat

open PropFormula List Option

universe u

namespace ModuleInput

variable {A : Type u}

/-! ## Justifications -/

inductive Event (A : Type u) where
  /-- The formula `f` is added with the origin `origin`. -/
  | given (f origin : Formula A)
  | removed (f : Formula A)
deriving DecidableEq

variable {f o : Formula A} {es : List (Event A)}

section Justified

variable [DecidableEq A]

/-- The formula `f` was added with the origin `o`, no part of which has been removed since. -/
def Justified (events : List (Event A)) (f o : Formula A) : Prop :=
  ∃ before after, events = before ++ .given f o :: after ∧
    ∀ r, .removed r ∈ after → hasPart o r = false

theorem Justified.mem {events : List (Event A)} (h : Justified events f o) :
    .given f o ∈ events := by
  obtain ⟨before, after, rfl, -⟩ := h
  exact mem_append_right _ mem_cons_self

theorem justified_append {es' : List (Event A)} :
    Justified (es ++ es') f o ↔
      (Justified es f o ∧ ∀ r, .removed r ∈ es' → hasPart o r = false) ∨ Justified es' f o := by
  constructor
  · rintro ⟨before, after, h, hr⟩
    rcases append_eq_append_iff.mp h with ⟨mid, rfl, hes'⟩ | ⟨mid, hes, hmid⟩
    · exact Or.inr ⟨mid, after, hes', hr⟩
    · cases mid with
      | nil => exact Or.inr ⟨[], after, by simpa using hmid.symm, hr⟩
      | cons x mid =>
        obtain ⟨rfl, rfl⟩ := List.cons.inj hmid
        refine Or.inl ⟨⟨before, mid, hes, fun r h => hr r ?_⟩, fun r h => hr r ?_⟩
        · exact mem_append_left _ h
        · exact mem_append_right _ h
  · rintro (⟨⟨before, after, rfl, hr⟩, hr'⟩ | ⟨before, after, rfl, hr⟩)
    · refine ⟨before, after ++ es', by simp, fun r h => ?_⟩
      rcases mem_append.mp h with h | h
      · exact hr r h
      · exact hr' r h
    · exact ⟨es ++ before, after, by simp, hr⟩

end Justified

/-- The formulas `fs` are added with the origins `os`. -/
def givens (fs os : List (Formula A)) : List (Event A) := fs.flatMap fun f => os.map (.given f)

variable {fs os : List (Formula A)}

theorem given_mem_givens : .given f o ∈ givens fs os ↔ f ∈ fs ∧ o ∈ os := by
  simp [givens]

theorem removed_notMem_givens {r : Formula A} : .removed r ∉ givens fs os := by
  simp [givens]

variable [DecidableEq A]

/-- Additions give the formulas new origins. -/
theorem justified_givens :
    Justified (es ++ givens fs os) f o ↔ OriginRelation.giveAll (Justified es) fs os f o := by
  rw [justified_append, OriginRelation.giveAll, ← given_mem_givens]
  refine or_congr (and_iff_left fun r h => absurd h removed_notMem_givens) ⟨fun h => h.mem, ?_⟩
  · intro h
    obtain ⟨before, after, hes⟩ := append_of_mem h
    refine ⟨before, after, hes, fun r hr => ?_⟩
    have hr' : .removed r ∈ givens fs os := by
      rw [hes]
      exact mem_append_right _ (mem_cons_of_mem _ hr)
    exact absurd hr' removed_notMem_givens

/-- Removals take the origins away that vanish with the formula. -/
theorem justified_removed {r : Formula A} :
    Justified (es ++ [.removed r]) f o ↔ OriginRelation.remove (Justified es) r f o := by
  rw [justified_append, OriginRelation.remove]
  constructor
  · rintro (⟨h, hr⟩ | h)
    · exact ⟨h, hr r mem_cons_self⟩
    · cases mem_singleton.mp h.mem
  · rintro ⟨h, hr⟩
    refine Or.inl ⟨h, fun r' hr' => ?_⟩
    rcases mem_singleton.mp hr' with h
    rw [Event.removed.inj h]
    exact hr

/-! ## Runs -/

/-- What happens to a module input: its owner makes vectors of origins, and adds formulas with a
single origin or with such a vector; a formula its owner has received is removed. -/
inductive Action (A : Type u) where
  | allocate (origins : List (Formula A))
  | addSingle (f origin : Formula A) (mightBeConjunction : Bool)
  | addShared (f : Formula A) (origins : Nat) (mightBeConjunction : Bool)
  | removeReceived (f : Formula A)

def step (m : ModuleInput A) : Action A → Option (ModuleInput A)
  | .allocate os => some (m.allocate os)
  | .addSingle f o b => some (add (.single o) f b m).2
  | .addShared f v b => if v < m.nextVector then some (add (.shared (some v)) f b m).2 else none
  | .removeReceived f => some (m.removeReceived f)

/-- The origins an action gives or takes away. -/
def events (m : ModuleInput A) : Action A → List (Event A)
  | .allocate _ => []
  | .addSingle f o b => givens (parts f b) [o]
  | .addShared f v b => givens (parts f b) (m.vectors v)
  | .removeReceived f => [.removed f]

def history : ModuleInput A → List (Action A) → List (Event A)
  | _, [] => []
  | m, a :: as =>
    events m a ++ match step m a with
      | none => []
      | some m' => history m' as

/-- Formulas are stored as long as they have an origin, and with the origins they have. -/
def Bookkeeping (m : ModuleInput A) (events : List (Event A)) : Prop :=
  (∀ f, m.contains f ↔ ∃ o, Justified events f o) ∧ ∀ f o, o ∈ m.origins f ↔ Justified events f o

/-- A single origin is given to formulas only that share their vector of origins with no other
formula, and a vector of origins is not empty. -/
def AddsUnshared (m : ModuleInput A) : Action A → Prop
  | .allocate _ => True
  | .addSingle f _ b => ∀ g ∈ parts f b, m.Unshared g
  | .addShared _ v _ => m.vectors v ≠ []
  | .removeReceived _ => True

instance (m : ModuleInput A) (a : Action A) : Decidable (m.AddsUnshared a) := by
  cases a <;> unfold AddsUnshared <;> infer_instance

theorem empty_represents : (empty : ModuleInput A).Represents (Justified []) where
  wellFormed := empty_wellFormed
  origins := nofun
  stored f := by
    refine ⟨nofun, ?_⟩
    rintro ⟨o, ho⟩
    exact absurd ho.mem not_mem_nil

theorem Represents.step {m m' : ModuleInput A} {a : Action A}
    (hm : m.Represents (Justified es)) (ha : m.AddsUnshared a) (h : step m a = some m') :
    m'.Represents (Justified (es ++ events m a)) := by
  cases a with
  | allocate os =>
    cases h
    rw [events, append_nil]
    exact hm.allocate os
  | addSingle f o b =>
    cases h
    rw [add_snd]
    exact (hm.addElements_single ha o).congr fun _ _ => justified_givens.symm
  | addShared f v b =>
    rw [ModuleInput.step, ite_none_right_eq_some] at h
    obtain ⟨hv, h⟩ := h
    cases h
    rw [add_snd]
    exact (hm.addElements_shared hv ha).congr fun _ _ => justified_givens.symm
  | removeReceived f =>
    cases h
    exact (hm.removeReceived f).congr fun _ _ => justified_removed.symm

theorem Represents.run {actions : List (Action A)} {m m' : ModuleInput A}
    (hm : m.Represents (Justified es))
    (h : Run.run (Run.guarded AddsUnshared ModuleInput.step) m actions = some m') :
    m'.Represents (Justified (es ++ history m actions)) := by
  induction actions generalizing m es with
  | nil =>
    cases h
    rwa [history, append_nil]
  | cons a as ih =>
    obtain ⟨m₁, h₁, h⟩ := Run.run_cons.mp h
    obtain ⟨ha, h₁⟩ := Run.guarded_eq_some.mp h₁
    have hrun := ih (hm.step ha h₁) h
    simp only [history, h₁]
    rwa [append_assoc] at hrun

/-- In a run that never adds a single origin to a shared vector in place, exactly the formulas
with a justification are stored, each with exactly its justifications as origins. -/
theorem bookkeeping_run (actions : List (Action A)) (m : ModuleInput A)
    (h : Run.run (Run.guarded AddsUnshared step) empty actions = some m) :
    m.Bookkeeping (history empty actions) := by
  have hm := empty_represents.run h
  exact ⟨hm.stored, fun f o => hm.mem_origins⟩

def conjunctionActions : List (Action Nat) :=
  [.allocate [.atom 2], .addShared (.app .and [.atom 0, .atom 1]) 0 true,
    .addSingle (.atom 5) (.atom 3) true, .removeReceived (.atom 2)]

theorem bookkeeping_run_conjunction :
    ∃ m, Run.run (Run.guarded AddsUnshared step) empty conjunctionActions = some m ∧
      m.Bookkeeping (history empty conjunctionActions) := by
  have hrun : (Run.run (Run.guarded AddsUnshared step) empty conjunctionActions).isSome := by
    decide
  obtain ⟨m, hm⟩ := isSome_iff_exists.mp hrun
  exact ⟨m, hm, bookkeeping_run _ m hm⟩

def sharedVectorActions : List (Action Nat) :=
  [.allocate [.atom 2], .addShared (.atom 0) 0 true, .addShared (.atom 1) 0 true,
    .addSingle (.atom 0) (.atom 3) true, .removeReceived (.atom 2)]

/-- Two formulas share the vector with their origin `2`; when one of them gets the origin `3`, so
does the other, which is then still stored when `2` is removed. -/
theorem bookkeeping_shared_vector :
    ¬ ∀ (actions : List (Action Nat)) (m : ModuleInput Nat),
      Run.run step empty actions = some m → m.Bookkeeping (history empty actions) := by
  intro h
  have hrun : (Run.run step empty sharedVectorActions).any
      fun m => .atom 3 ∈ m.origins (.atom 1) := by decide
  obtain ⟨m, hm, hmem⟩ := (Option.any_eq_true _ _).mp hrun
  have hj := ((h _ m hm).2 _ _).mp (of_decide_eq_true hmem)
  exact absurd hj.mem (by decide)

end ModuleInput

end Smtrat
