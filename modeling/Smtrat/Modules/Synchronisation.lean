import Smtrat.Modules.Entries
import Smtrat.Modules.Backends

/-!
# Synchronisation of the backends

Whenever a backend is checked, it has received the passed formulas, each of them once.  The list of
passed formulas is split in two: all the backends have received the first part and none of them the
second one.  Additions go to the second part, a run of the backends moves it to the first part, and
an erasure takes a formula from the part it is in.
-/

namespace Smtrat

open PropFormula List Function

universe u

namespace Backends

variable {A : Type u}

namespace Module

variable [DecidableEq A]

/-! ## Creation of backends -/

variable {p : ThreadPriority}

omit [DecidableEq A] in
theorem mem_getBackend {s : Module A} {q : ThreadPriority} :
    q ∈ (s.getBackend p).mAllBackends ↔ q ∈ s.mAllBackends ∨ q = p := by
  rw [getBackend]
  split_ifs with hp
  · exact ⟨Or.inl, fun h => h.elim id fun h => h ▸ hp⟩
  · simp [createBackend, call]

omit [DecidableEq A] in
/-- The backends that are asked for exist afterwards. -/
theorem mem_getBackends {s : Module A} {factories : List ThreadPriority} {q : ThreadPriority} :
    q ∈ (s.getBackends factories).mAllBackends ↔ q ∈ s.mAllBackends ∨ q ∈ factories := by
  induction factories generalizing s with
  | nil => simp [getBackends]
  | cons p ps ih =>
    have hcons : s.getBackends (p :: ps) = (s.getBackend p).getBackends ps := rfl
    rw [hcons, ih, mem_getBackend, mem_cons, or_assoc]

/-- The passed formulas are split: all the backends have received the entries `done` and none of
them the entries `todo`, the first of which is the one `mFirstSubformulaToPass` refers to. -/
structure Synchronised (s : Module A) (done todo : List (Nat × Formula A)) : Prop where
  wellFormed : s.mpPassedFormula.WellFormed
  entries : s.mpPassedFormula.entries = done ++ todo
  first : s.mFirstSubformulaToPass = todo.head?.map (·.1)
  backends_nodup : s.mAllBackends.Nodup
  received : ∀ p ∈ s.mAllBackends, received s.calls p = done.map (·.2)
  others : ∀ p ∉ s.mAllBackends, Backends.received s.calls p = []
  proper : Proper s.calls

theorem initial_synchronised : (initial : Module A).Synchronised [] [] where
  wellFormed := ModuleInput.empty_wellFormed
  entries := rfl
  first := rfl
  backends_nodup := nodup_nil
  received := nofun
  others := fun _ _ => rfl
  proper := fun before c after h =>
    absurd h.symm (append_ne_nil_of_right_ne_nil before (cons_ne_nil c after))

variable {x : Nat × Formula A}

namespace Synchronised

variable {s : Module A} {done todo : List (Nat × Formula A)} (hs : s.Synchronised done todo)

include hs

theorem positions_nodup : ((done ++ todo).map (·.1)).Nodup := by
  rw [← hs.entries, ModuleInput.entries, map_map]
  exact hs.wellFormed.positions_nodup

theorem formulas_eq : s.mpPassedFormula.formulas = done.map (·.2) ++ todo.map (·.2) := by
  rw [← ModuleInput.entries_formulas, hs.entries, map_append]

theorem formulas_nodup : (done.map (·.2) ++ todo.map (·.2)).Nodup := by
  rw [← hs.formulas_eq]
  exact hs.wellFormed.formulas_nodup

variable {y : Nat × Formula A}

/-- An entry is determined by its position. -/
theorem eq_of_position (hx : x ∈ done ++ todo) (hy : y ∈ done ++ todo) (h : x.1 = y.1) : x = y :=
  inj_on_of_nodup_map hs.positions_nodup hx hy h

/-- An entry is determined by its formula. -/
theorem eq_of_formula (hx : x ∈ done ++ todo) (hy : y ∈ done ++ todo) (h : x.2 = y.2) : x = y := by
  have hnodup : ((done ++ todo).map (·.2)).Nodup := by
    rw [map_append]
    exact hs.formulas_nodup
  exact inj_on_of_nodup_map hnodup hx hy h

theorem position_ne_of_done (hx : x ∈ done) (hy : y ∈ todo) : x.1 ≠ y.1 := by
  have hnodup := hs.positions_nodup
  rw [map_append] at hnodup
  exact (nodup_append.mp hnodup).2.2 _ (mem_map_of_mem hx) _ (mem_map_of_mem hy)

theorem beforeFirst_eq : s.beforeFirst.map (fun e => (e.position, e.mFormula)) = done := by
  rw [beforeFirst, hs.first]
  cases todo with
  | nil =>
    have h := hs.entries
    rw [append_nil] at h
    exact h
  | cons x todo =>
    have htake := takeWhile_map (p := fun y => decide (y.1 ≠ x.1))
      (f := fun e : FormulaWithOrigins A => (e.position, e.mFormula))
      (l := s.mpPassedFormula.elements)
    have hdone : ∀ y ∈ done, decide (y.1 ≠ x.1) = true := fun y hy =>
      decide_eq_true (hs.position_ne_of_done hy mem_cons_self)
    have hents := hs.entries
    rw [ModuleInput.entries] at hents
    rw [hents, takeWhile_append_of_pos hdone] at htake
    simpa [comp_def] using htake.symm

theorem fromFirst_eq : s.fromFirst.map (fun e => (e.position, e.mFormula)) = todo := by
  rw [fromFirst, hs.first]
  cases todo with
  | nil => rfl
  | cons x todo =>
    have hdrop := dropWhile_map (p := fun y => decide (y.1 ≠ x.1))
      (f := fun e : FormulaWithOrigins A => (e.position, e.mFormula))
      (l := s.mpPassedFormula.elements)
    have hdone : ∀ y ∈ done, decide (y.1 ≠ x.1) = true := fun y hy =>
      decide_eq_true (hs.position_ne_of_done hy mem_cons_self)
    have hents := hs.entries
    rw [ModuleInput.entries] at hents
    rw [hents, dropWhile_append_of_pos hdone] at hdrop
    simpa [comp_def] using hdrop.symm

theorem beforeFirst_formulas : s.beforeFirst.map (·.mFormula) = done.map (·.2) := by
  rw [← hs.beforeFirst_eq, map_map]
  rfl

theorem fromFirst_formulas : s.fromFirst.map (·.mFormula) = todo.map (·.2) := by
  rw [← hs.fromFirst_eq, map_map]
  rfl

theorem fromFirst_positions : s.fromFirst.map (·.position) = todo.map (·.1) := by
  rw [← hs.fromFirst_eq, map_map]
  rfl

/-! ## Running the backends -/

/-- A new backend is synchronised with the others. -/
theorem createBackend (hp : p ∉ s.mAllBackends) : (s.createBackend p).Synchronised done todo where
  wellFormed := hs.wellFormed
  entries := hs.entries
  first := hs.first
  backends_nodup := nodup_append.mpr ⟨hs.backends_nodup, nodup_singleton p,
    fun q hq q' hq' heq => hp (by rwa [heq, mem_singleton.mp hq'] at hq)⟩
  received := by
    intro q hq
    rw [Module.createBackend, call]
    dsimp only
    rw [received_adds]
    rcases mem_append.mp hq with hq | hq
    · have hqp : q ≠ p := fun heq => hp (heq ▸ hq)
      rw [if_neg hqp]
      exact hs.received q hq
    · obtain rfl := mem_singleton.mp hq
      rw [if_pos rfl, hs.others q hp]
      exact hs.beforeFirst_formulas
  others := by
    intro q hq
    have hq' : q ∉ s.mAllBackends ∧ q ≠ p := by
      simpa [Module.createBackend, call, not_or] using hq
    rw [Module.createBackend, call]
    dsimp only
    rw [received_adds, if_neg hq'.2]
    exact hs.others q hq'.1
  proper := by
    refine hs.proper.adds ?_
    rw [hs.others p hp, nil_append]
    have h := hs.formulas_nodup
    rw [← hs.beforeFirst_formulas] at h
    exact (nodup_append.mp h).1

theorem getBackend (p : ThreadPriority) : (s.getBackend p).Synchronised done todo := by
  rw [Module.getBackend]
  split_ifs with hp
  · exact hs
  · exact hs.createBackend hp

theorem getBackends (factories : List ThreadPriority) :
    (s.getBackends factories).Synchronised done todo := by
  induction factories generalizing s with
  | nil => exact hs
  | cons p ps ih => exact ih (hs.getBackend p)

/-- All the formulas have been received once the new ones are passed. -/
theorem passFormulas : s.passFormulas.Synchronised (done ++ todo) [] where
  wellFormed := hs.wellFormed
  entries := by
    rw [append_nil]
    exact hs.entries
  first := rfl
  backends_nodup := hs.backends_nodup
  received := by
    intro p (hp : p ∈ s.mAllBackends)
    have h := received_flatMap_adds s.calls s.fromFirst hs.backends_nodup p
    rw [if_pos hp, hs.received p hp, hs.fromFirst_formulas, ← map_append] at h
    exact h
  others := by
    intro p (hp : p ∉ s.mAllBackends)
    have h := received_flatMap_adds s.calls s.fromFirst hs.backends_nodup p
    rw [if_neg hp, hs.others p hp] at h
    exact h
  proper := by
    refine hs.proper.flatMap_adds hs.backends_nodup fun p hp => ?_
    rw [hs.received p hp, hs.fromFirst_formulas]
    exact hs.formulas_nodup

end Synchronised

/-- All the passed formulas are checked. -/
theorem Synchronised.check {s : Module A} {done : List (Nat × Formula A)}
    (hs : s.Synchronised done []) (hp : p ∈ s.mAllBackends) :
    (s.call [.check p s.mpPassedFormula.formulas]).Synchronised done [] where
  wellFormed := hs.wellFormed
  entries := hs.entries
  first := hs.first
  backends_nodup := hs.backends_nodup
  received := by
    intro q hq
    rw [call]
    dsimp only
    rw [received_concat]
    exact hs.received q hq
  others := by
    intro q hq
    rw [call]
    dsimp only
    rw [received_concat]
    exact hs.others q hq
  proper := by
    refine hs.proper.concat ⟨?_, hs.wellFormed.formulas_nodup⟩
    rw [hs.received p hp, hs.formulas_eq, map_nil, append_nil]

theorem Synchronised.checkBackends {r : Answers A} {ps : List ThreadPriority} {result : Answer}
    {s : Module A} {done : List (Nat × Formula A)} (hs : s.Synchronised done [])
    (hps : ∀ p ∈ ps, p ∈ s.mAllBackends) :
    (Module.checkBackends r ps result s).2.Synchronised done [] := by
  induction ps generalizing s result with
  | nil => exact hs
  | cons p ps ih =>
    rw [Module.checkBackends]
    split_ifs
    · exact ih (hs.check (hps p mem_cons_self)) fun q hq => hps q (mem_cons_of_mem p hq)
    · exact hs

theorem Synchronised.runBackends {s : Module A} {done todo : List (Nat × Formula A)}
    (hs : s.Synchronised done todo) (factories : List ThreadPriority) (r : Answers A) :
    ∃ done' todo', (s.runBackends factories r).2.Synchronised done' todo' := by
  have hget := hs.getBackends factories
  have hmem : ∀ p ∈ factories, p ∈ (s.getBackends factories).mAllBackends := fun p hp =>
    mem_getBackends.mpr (Or.inr hp)
  rw [Module.runBackends]
  split_ifs with hempty hfst
  · exact ⟨done, todo, hget⟩
  · exact ⟨_, _, hget.passFormulas⟩
  · exact ⟨_, _, hget.passFormulas.checkBackends hmem⟩
  · -- There is nothing new to pass.
    have htodo : todo = [] := by
      rw [hget.first] at hfst
      cases todo with
      | nil => rfl
      | cons x todo => exact absurd rfl hfst
    subst htodo
    exact ⟨_, _, hget.checkBackends hmem⟩

/-! ## Changes of the passed formulas -/

variable {s' : Module A} {m : ModuleInput A}

namespace Synchronised

variable {s : Module A} {done todo : List (Nat × Formula A)} (hs : s.Synchronised done todo)

include hs

theorem withPassed (h : s.mpPassedFormula.SameEntries m) :
    (s.withPassed m).Synchronised done todo :=
  { hs with
    wellFormed := h.wellFormed hs.wellFormed
    entries := h.entries.trans hs.entries }

theorem addSubformula (given : ModuleInput.Given A) (f : Formula A) (b : Bool) :
    ∃ new, (s.addSubformulaToPassedFormula given f b).Synchronised done (todo ++ new) := by
  obtain ⟨new, h⟩ := ModuleInput.add_appends given f b s.mpPassedFormula
  refine ⟨new, { hs with wellFormed := h.wellFormed hs.wellFormed, entries := ?_, first := ?_ }⟩
  · rw [addSubformulaToPassedFormula]
    dsimp only
    rw [h.entries, hs.entries, append_assoc]
  · rw [addSubformulaToPassedFormula]
    dsimp only
    rw [h.added, hs.first]
    cases todo with
    | cons x todo => simp
    | nil =>
      cases new with
      | nil => simp
      | cons x new => simpa using h.first (cons_ne_nil x new)

theorem element_of_mem (hx : x ∈ done ++ todo) :
    ∃ e ∈ s.mpPassedFormula.elements, s.mpPassedFormula.element x.1 = some e ∧
      e.position = x.1 ∧ e.mFormula = x.2 := by
  have hmem := hx
  rw [← hs.entries] at hmem
  obtain ⟨e, he, rfl⟩ := mem_map.mp hmem
  exact ⟨e, he, hs.wellFormed.element_eq he, rfl, rfl⟩

theorem entries_erase (it : Nat) : (s.mpPassedFormula.erase it).entries
    = done.filter (·.1 ≠ it) ++ todo.filter (·.1 ≠ it) := by
  rw [ModuleInput.entries_erase, hs.entries, filter_append]

/-- The iterator to the first formula to pass moves on when that formula is erased. -/
theorem next_first : s.fromFirst.tail.head?.map (·.position) = todo.tail.head?.map (·.1) := by
  rw [← head?_map, map_tail, hs.fromFirst_positions, ← map_tail, head?_map]

/-- An entry that no backend has received is erased. -/
theorem erase_todo (hx : x ∈ todo) (h : s.eraseSubformulaFromPassedFormula x.1 = some s') :
    s'.Synchronised done (todo.filter (·.1 ≠ x.1)) ∧ s'.calls = s.calls := by
  obtain ⟨e, he, hel, hpos, -⟩ := hs.element_of_mem (mem_append_right _ hx)
  have hwf := hs.wellFormed.erase he hpos
  have hdone : done.filter (·.1 ≠ x.1) = done :=
    filter_eq_self.mpr fun y hy => decide_eq_true (hs.position_ne_of_done hy hx)
  have hents := hs.entries_erase x.1
  rw [hdone] at hents
  rw [eraseSubformulaFromPassedFormula, hel, Option.map_some, Option.some.injEq] at h
  cases todo with
  | nil => cases hx
  | cons y todo =>
    have hnodup := hs.positions_nodup
    rw [map_append, map_cons] at hnodup
    have hy := (nodup_cons.mp (nodup_append.mp hnodup).2.1).1
    by_cases hxy : s.mFirstSubformulaToPass = some x.1
    · have hfst : x.1 = y.1 := by
        rw [hs.first] at hxy
        exact (Option.some.inj hxy).symm
      have htail : (y :: todo).filter (·.1 ≠ x.1) = todo := by
        rw [filter_cons_of_neg (by simpa using hfst.symm)]
        refine filter_eq_self.mpr fun z hz => decide_eq_true ?_
        rintro hzx
        exact hy (mem_map.mpr ⟨z, hz, hzx.trans hfst⟩)
      rw [if_pos hxy] at h
      subst h
      rw [htail] at hents ⊢
      exact ⟨{ hs with wellFormed := hwf, entries := hents, first := hs.next_first }, rfl⟩
    · have hmem : x.1 ∈ s.fromFirst.map (·.position) := by
        rw [hs.fromFirst_positions]
        exact mem_map_of_mem hx
      have hne : y.1 ≠ x.1 := by
        rintro heq
        exact hxy (by rw [hs.first, ← heq]; rfl)
      have hhead : s.mFirstSubformulaToPass = ((y :: todo).filter (·.1 ≠ x.1)).head?.map (·.1) := by
        rw [filter_cons_of_pos (by simpa using hne), hs.first]
        rfl
      rw [if_neg hxy, if_pos hmem] at h
      subst h
      exact ⟨{ hs with wellFormed := hwf, entries := hents, first := hhead }, rfl⟩

/-- The formulas of the entries without the one at a position. -/
theorem map_filter_done (hx : x ∈ done) :
    (done.filter (·.1 ≠ x.1)).map (·.2) = (done.map (·.2)).erase x.2 := by
  have hnodup : (done.map (·.2)).Nodup := (nodup_append.mp hs.formulas_nodup).1
  rw [hnodup.erase_eq_filter, filter_map]
  congr 1
  refine filter_congr fun y hy => ?_
  have hiff : y.1 ≠ x.1 ↔ y.2 ≠ x.2 := by
    have hx' := mem_append_left todo hx
    have hy' := mem_append_left todo hy
    constructor
    · exact mt fun h => congrArg Prod.fst (hs.eq_of_formula hy' hx' h)
    · exact mt fun h => congrArg Prod.snd (hs.eq_of_position hy' hx' h)
  rw [Bool.eq_iff_iff]
  simpa using hiff

/-- An entry that all the backends have received is erased. -/
theorem erase_done (hx : x ∈ done) (h : s.eraseSubformulaFromPassedFormula x.1 = some s') :
    s'.Synchronised (done.filter (·.1 ≠ x.1)) todo ∧
      s'.calls = s.calls ++ s.mAllBackends.map (.remove · x.2) := by
  obtain ⟨e, he, hel, hpos, hform⟩ := hs.element_of_mem (mem_append_left _ hx)
  have hwf := hs.wellFormed.erase he hpos
  have htodo : todo.filter (·.1 ≠ x.1) = todo :=
    filter_eq_self.mpr fun y hy => decide_eq_true (hs.position_ne_of_done hx hy).symm
  have hents := hs.entries_erase x.1
  rw [htodo] at hents
  have hmem : x.1 ∉ s.fromFirst.map (·.position) := by
    rw [hs.fromFirst_positions]
    rintro hmem
    obtain ⟨y, hy, heq⟩ := mem_map.mp hmem
    exact hs.position_ne_of_done hx hy heq.symm
  have hfst : s.mFirstSubformulaToPass ≠ some x.1 := by
    rintro heq
    rw [hs.first] at heq
    obtain ⟨y, hy, heq⟩ := Option.map_eq_some_iff.mp heq
    exact hs.position_ne_of_done hx (mem_of_head? hy) heq.symm
  rw [eraseSubformulaFromPassedFormula, hel, Option.map_some, Option.some.injEq, if_neg hfst,
    if_neg hmem, hform] at h
  subst h
  refine ⟨?_, rfl⟩
  refine { hs with
    wellFormed := hwf, entries := hents, received := ?_, others := ?_, proper := ?_ }
  · intro p (hp : p ∈ s.mAllBackends)
    have hrec := received_removes s.calls hs.backends_nodup x.2 p
    rw [if_pos hp, hs.received p hp, ← hs.map_filter_done hx] at hrec
    exact hrec
  · intro p (hp : p ∉ s.mAllBackends)
    have hrec := received_removes s.calls hs.backends_nodup x.2 p
    rw [if_neg hp, hs.others p hp] at hrec
    exact hrec
  · refine hs.proper.removes hs.backends_nodup fun p hp => ?_
    rw [hs.received p hp]
    exact mem_map_of_mem hx

/-- An erasure keeps the lists synchronised.  When the formula is no longer passed afterwards, it
has been removed from the backends that had received it. -/
theorem erase {it : Nat} (h : s.eraseSubformulaFromPassedFormula it = some s') :
    (∃ done' todo', s'.Synchronised done' todo') ∧
      ∀ f ∈ s.mpPassedFormula.formulas, f ∉ s'.mpPassedFormula.formulas →
        s'.calls = s.calls
          ++ (s.mAllBackends.filter (f ∈ Backends.received s.calls ·)).map (.remove · f) := by
  obtain ⟨e, hel, -⟩ := Option.map_eq_some_iff.mp h
  obtain ⟨he, hpos⟩ := ModuleInput.position_of_element hel
  have hmem : (e.position, e.mFormula) ∈ done ++ todo := by
    rw [← hs.entries]
    exact mem_map_of_mem he
  subst hpos
  -- An entry with another position is still there.
  have hsame : ∀ f ∈ s.mpPassedFormula.formulas, ∀ done' todo', s'.Synchronised done' todo' →
      done' ++ todo' = (done ++ todo).filter (·.1 ≠ e.position) →
      f ∉ s'.mpPassedFormula.formulas → f = e.mFormula := by
    intro f hf done' todo' hs' heq hnot
    rw [← ModuleInput.entries_formulas, hs.entries] at hf
    obtain ⟨x, hx, rfl⟩ := mem_map.mp hf
    by_contra hne
    refine hnot ?_
    rw [← ModuleInput.entries_formulas, hs'.entries, heq]
    refine mem_map_of_mem (mem_filter.mpr ⟨hx, decide_eq_true ?_⟩)
    rintro hpos
    exact hne (congrArg Prod.snd (hs.eq_of_position hx hmem hpos))
  rcases mem_append.mp hmem with hd | ht
  · obtain ⟨hs', hcalls⟩ := hs.erase_done hd h
    refine ⟨⟨_, _, hs'⟩, fun f hf hnot => ?_⟩
    have htodo : todo.filter (·.1 ≠ e.position) = todo :=
      filter_eq_self.mpr fun y hy => decide_eq_true (hs.position_ne_of_done hd hy).symm
    obtain rfl := hsame f hf _ _ hs' (by rw [filter_append, htodo]) hnot
    have hall : s.mAllBackends.filter (e.mFormula ∈ Backends.received s.calls ·)
        = s.mAllBackends := by
      refine filter_eq_self.mpr fun p hp => decide_eq_true ?_
      rw [hs.received p hp]
      exact mem_map_of_mem hd
    rw [hall]
    exact hcalls
  · obtain ⟨hs', hcalls⟩ := hs.erase_todo ht h
    refine ⟨⟨_, _, hs'⟩, fun f hf hnot => ?_⟩
    have hdone : done.filter (·.1 ≠ e.position) = done :=
      filter_eq_self.mpr fun y hy => decide_eq_true (hs.position_ne_of_done hy ht)
    obtain rfl := hsame f hf _ _ hs' (by rw [filter_append, hdone]) hnot
    have hnone : s.mAllBackends.filter (e.mFormula ∈ Backends.received s.calls ·) = [] := by
      refine filter_eq_nil_iff.mpr fun p hp => ?_
      rw [decide_eq_true_eq, hs.received p hp]
      intro hmem'
      exact (nodup_append.mp hs.formulas_nodup).2.2 _ hmem' _ (mem_map_of_mem ht) rfl
    rw [hnone, hcalls]
    simp

end Synchronised

/-- What a step does to synchronised lists. -/
structure StepSpec (s s' : Module A) : Prop where
  synchronised : ∃ done todo, s'.Synchronised done todo
  /-- A formula that is no longer passed is removed from the backends that have received it, and
  nothing else happens. -/
  removes : ∀ f ∈ s.mpPassedFormula.formulas, f ∉ s'.mpPassedFormula.formulas →
    s'.calls = s.calls ++ (s.mAllBackends.filter (f ∈ received s.calls ·)).map (.remove · f)

/-- A step after which all the formulas are still passed. -/
theorem StepSpec.of_subset {s : Module A} (h : ∃ done todo, s'.Synchronised done todo)
    (hsub : ∀ f ∈ s.mpPassedFormula.formulas, f ∈ s'.mpPassedFormula.formulas) : StepSpec s s' :=
  ⟨h, fun f hf hnot => absurd (hsub f hf) hnot⟩

omit [DecidableEq A] in
theorem formulas_withPassed {s : Module A} (h : s.mpPassedFormula.SameEntries m) :
    (s.withPassed m).mpPassedFormula.formulas = s.mpPassedFormula.formulas := by
  rw [← ModuleInput.entries_formulas, ← ModuleInput.entries_formulas, withPassed, h.entries]

theorem Synchronised.withPassed_spec {s : Module A} {done todo : List (Nat × Formula A)}
    (hs : s.Synchronised done todo) (h : s.mpPassedFormula.SameEntries m) :
    StepSpec s (s.withPassed m) :=
  .of_subset ⟨_, _, hs.withPassed h⟩ fun f hf => by rwa [formulas_withPassed h]

theorem Synchronised.eraseIf_spec {s : Module A} {done todo : List (Nat × Formula A)}
    (hs : s.Synchronised done todo) {it : Nat} {res : Bool × ModuleInput A}
    (hres : s.mpPassedFormula.SameEntries res.2) (h : s.eraseIf it res = some s') :
    StepSpec s s' := by
  rw [eraseIf] at h
  split_ifs at h
  · obtain ⟨hsync, hrem⟩ := (hs.withPassed hres).erase h
    rw [formulas_withPassed hres] at hrem
    exact ⟨hsync, hrem⟩
  · cases h
    exact hs.withPassed_spec hres

omit [DecidableEq A] in
theorem passed_getBackends (s : Module A) (factories : List ThreadPriority) :
    (s.getBackends factories).mpPassedFormula = s.mpPassedFormula := by
  induction factories generalizing s with
  | nil => rfl
  | cons p ps ih =>
    refine (ih (s.getBackend p)).trans ?_
    rw [getBackend]
    split_ifs <;> rfl

omit [DecidableEq A] in
theorem passed_checkBackends (r : Answers A) (ps : List ThreadPriority) (result : Answer)
    (s : Module A) : (checkBackends r ps result s).2.mpPassedFormula = s.mpPassedFormula := by
  induction ps generalizing s result with
  | nil => rfl
  | cons p ps ih =>
    rw [checkBackends]
    split_ifs
    · exact ih _ _
    · rfl

omit [DecidableEq A] in
theorem passed_runBackends (s : Module A) (factories : List ThreadPriority) (r : Answers A) :
    (s.runBackends factories r).2.mpPassedFormula = s.mpPassedFormula := by
  rw [runBackends]
  split_ifs
  · exact passed_getBackends s factories
  · exact passed_getBackends s factories
  · exact (passed_checkBackends _ _ _ _).trans (passed_getBackends s factories)
  · exact (passed_checkBackends _ _ _ _).trans (passed_getBackends s factories)

theorem Synchronised.step {s : Module A} {done todo : List (Nat × Formula A)}
    (hs : s.Synchronised done todo) {a : Action A} (h : s.step a = some s') : StepSpec s s' := by
  cases a with
  | makeOrigins os =>
    cases h
    exact hs.withPassed_spec (.allocate _ os)
  | addSubformula given f b =>
    cases h
    obtain ⟨new, hs'⟩ := hs.addSubformula given f b
    refine .of_subset ⟨_, _, hs'⟩ fun g hg => ?_
    rw [hs.formulas_eq] at hg
    rw [hs'.formulas_eq, map_append, ← append_assoc]
    exact mem_append_left _ hg
  | addOrigin it o =>
    cases h
    exact hs.withPassed_spec (.addOrigin _ it o)
  | removeOrigin it o => exact hs.eraseIf_spec (.removeOrigin _ it o) h
  | removeOrigins it os => exact hs.eraseIf_spec (.removeOrigins _ it os) h
  | eraseSubformula it =>
    obtain ⟨hsync, hrem⟩ := hs.erase h
    exact ⟨hsync, hrem⟩
  | init factories =>
    cases h
    refine .of_subset ⟨_, _, hs.getBackends factories⟩ fun f hf => ?_
    rwa [passed_getBackends]
  | runBackends factories r =>
    cases h
    refine .of_subset (hs.runBackends factories r) fun f hf => ?_
    rwa [passed_runBackends]

theorem synchronised_run {actions : List (Action A)} {s : Module A}
    (h : Run.run step initial actions = some s) : ∃ done todo, s.Synchronised done todo :=
  Run.run_invariant (P := fun s => ∃ done todo, s.Synchronised done todo)
    (fun _ _ _ ⟨_, _, hs⟩ h => (hs.step h).synchronised) ⟨_, _, initial_synchronised⟩ h

/-- In every run each call of a backend is in order.  A formula that is no longer passed after a
further step has been removed, in this step, from each backend that had received it, and once. -/
theorem run_calls (actions : List (Action A)) (s : Module A)
    (h : Run.run step initial actions = some s) :
    Proper s.calls ∧ s.mAllBackends.Nodup ∧
      (∀ p f, f ∈ received s.calls p → p ∈ s.mAllBackends) ∧
      ∀ a s', s.step a = some s' →
        ∀ f ∈ s.mpPassedFormula.formulas, f ∉ s'.mpPassedFormula.formulas →
          s'.calls = s.calls
            ++ (s.mAllBackends.filter (f ∈ received s.calls ·)).map (.remove · f) := by
  obtain ⟨done, todo, hs⟩ := synchronised_run h
  refine ⟨hs.proper, hs.backends_nodup, fun p f hf => ?_, fun a s' ha => (hs.step ha).removes⟩
  by_contra hp
  rw [hs.others p hp] at hf
  cases hf

/-- Backends that find no answer. -/
def noAnswer : Answers Nat := ⟨fun _ => false, fun _ _ => true, fun _ => .unknown⟩

/-- The second backend is made for a run in which the first one refuses a formula.  One of the
formulas that both have received is then erased. -/
def refusedActions : List (Action Nat) :=
  [.addSubformula (.single (.atom 7)) (.atom 0) true, .runBackends [(0, 1)] noAnswer,
    .addSubformula (.single (.atom 7)) (.atom 1) true,
    .runBackends [(0, 1), (0, 2)] { noAnswer with add := fun p _ => p ≠ (0, 1) },
    .eraseSubformula 0, .addSubformula (.single (.atom 7)) (.atom 2) true,
    .runBackends [(0, 2)] noAnswer]

theorem run_calls_refused :
    ∃ s, Run.run step initial refusedActions = some s ∧
      .check (0, 2) [.atom 1, .atom 2] ∈ s.calls ∧ Proper s.calls := by
  have hrun : (Run.run step initial refusedActions).any
      fun s => .check (0, 2) [.atom 1, .atom 2] ∈ s.calls := by decide
  obtain ⟨s, hs, hmem⟩ := (Option.any_eq_true _ _).mp hrun
  exact ⟨s, hs, of_decide_eq_true hmem, (run_calls _ s hs).1⟩

end Module

end Backends

end Smtrat
