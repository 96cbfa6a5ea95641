import Smtrat.UnionFind.UnionFindModule

/-!
# The invariant of the union-find module

The versions are those of the received equalities, the latest one first, and the edges of the graph
are these equalities.  Growth and merges reach the current version only, so a removal leaves the
entries that the version before the merge has.
-/

namespace Smtrat.UnionFind

open ParentForest Backtrackable List Option

universe u v

variable {Var : Type u}

variable {fs : List (UEquality Var)}

theorem mem_equalities {p : Var × Var} :
    p ∈ equalities fs ↔ (⟨p.1, p.2, false⟩ : UEquality Var) ∈ fs := by
  rw [equalities, List.mem_map]
  constructor
  · rintro ⟨⟨lhs, rhs, negated⟩, hf, rfl⟩
    obtain ⟨hf, hpos⟩ := mem_filter.mp hf
    simp only [Bool.not_eq_true'] at hpos
    exact hpos ▸ hf
  · intro hf
    exact ⟨_, mem_filter.mpr ⟨hf, rfl⟩, rfl⟩

theorem equalities_append (fs gs : List (UEquality Var)) :
    equalities (fs ++ gs) = equalities fs ++ equalities gs := by
  simp [equalities]

variable {f : UEquality Var}

theorem equalities_cons_negated (hf : f.negated = true)
    (fs : List (UEquality Var)) : equalities (f :: fs) = equalities fs := by
  simp [equalities, hf]

theorem equalities_cons (hf : f.negated = false) (fs : List (UEquality Var)) :
    equalities (f :: fs) = (f.lhs, f.rhs) :: equalities fs := by
  simp [equalities, hf]

variable [DecidableEq Var]

/-- The pairs of values of the equalities. -/
def stamps (translate : List Var) (fs : List (UEquality Var)) : List (ℕ × ℕ) :=
  (equalities fs).map (Prod.map translate.idxOf translate.idxOf)

theorem stamps_append (translate : List Var) (fs gs : List (UEquality Var)) :
    stamps translate (fs ++ gs) = stamps translate fs ++ stamps translate gs := by
  rw [stamps, equalities_append, map_append, stamps, stamps]

theorem stamps_cons (translate : List Var) (hf : f.negated = false)
    (fs : List (UEquality Var)) : stamps translate (f :: fs) =
      (translate.idxOf f.lhs, translate.idxOf f.rhs) :: stamps translate fs := by
  rw [stamps, equalities_cons hf, map_cons]
  rfl

theorem stamps_reverse (translate : List Var) (fs : List (UEquality Var)) :
    stamps translate fs.reverse = (stamps translate fs).reverse := by
  simp [stamps, equalities]

/-- The values of the variables do not change when further variables get values. -/
theorem stamps_extend {translate : List Var} (suffix : List Var)
    (h : ∀ f ∈ fs, f.lhs ∈ translate ∧ f.rhs ∈ translate) :
    stamps (translate ++ suffix) fs = stamps translate fs := by
  refine map_congr_left fun p hp => ?_
  obtain ⟨hlhs, hrhs⟩ := h _ (mem_equalities.mp hp)
  rw [Prod.map, Prod.map, idxOf_append_of_mem hlhs, idxOf_append_of_mem hrhs]

theorem stamp_not_mem {translate : List Var}
    (h : ∀ g ∈ fs, g.lhs ∈ translate ∧ g.rhs ∈ translate) (hneg : f.negated = false)
    (hf : f ∉ fs) : (translate.idxOf f.lhs, translate.idxOf f.rhs) ∉ stamps translate fs := by
  intro hstamp
  obtain ⟨⟨lhs, rhs⟩, hp, heq⟩ := List.mem_map.mp hstamp
  obtain ⟨hlhs, hrhs⟩ := Prod.mk.inj heq
  have hg := mem_equalities.mp hp
  obtain ⟨htranslatel, htranslater⟩ := h _ hg
  have hsame : (⟨lhs, rhs, false⟩ : UEquality Var) = f := by
    obtain ⟨l, r, negated⟩ := f
    have hl : lhs = l := (idxOf_inj htranslatel).mp hlhs
    have hr : rhs = r := (idxOf_inj htranslater).mp hrhs
    have hn : negated = false := hneg
    rw [hl, hr, hn]
  exact hf (hsame ▸ hg)

/-! ## The operations of the classes -/

variable {var : Var}

namespace UnionFindModule

variable {m : UnionFindModule Var} {pairs : List (ℕ × ℕ)} {root : ℕ → ℕ}

theorem value_of_mem (h : var ∈ m.translate) : m.value var = some (m.translate.idxOf var) := by
  rw [value, if_pos h]

end UnionFindModule

open State

theorem hasEntry_iff {m : UnionFindModule Var} :
    HasEntry m var ↔ var ∈ m.translate ∧ m.translate.idxOf var < m.classes.size := by
  rw [HasEntry, UnionFindModule.value]
  split_ifs with h
  · simp [h]
  · simp [h]

namespace UnionFindModule

variable {m : UnionFindModule Var} {pairs : List (ℕ × ℕ)} {root : ℕ → ℕ}

theorem find_spec (h : m.classes.Represents root pairs) (hvar : HasEntry m var) :
    ∃ c : Backtrackable, m.find var = some ({ m with classes := c }, root (m.translate.idxOf var)) ∧
      c.Represents root pairs ∧ c.size = m.classes.size := by
  obtain ⟨htransl, hlt⟩ := hasEntry_iff.mp hvar
  obtain ⟨c, hfind, hrep, hsize⟩ := h.find hlt
  refine ⟨c, ?_, hrep, hsize⟩
  rw [find, value_of_mem htransl, bind_some, hfind, map_some]

theorem merge_spec (h : Versions m.classes.history pairs) {a b : Var} (ha : HasEntry m a)
    (hb : HasEntry m b) : ∃ c : Backtrackable, m.merge a b = some { m with classes := c } ∧
      Versions c.history ((m.translate.idxOf a, m.translate.idxOf b) :: pairs) ∧
      c.size = m.classes.size := by
  obtain ⟨ha, halt⟩ := hasEntry_iff.mp ha
  obtain ⟨hb, hblt⟩ := hasEntry_iff.mp hb
  obtain ⟨c, hmerge, hvers, hsize⟩ := h.merge halt hblt
  refine ⟨c, ?_, hvers, hsize⟩
  rw [merge, value_of_mem ha, value_of_mem hb, bind_some, bind_some, hmerge, map_some]

/-- The equalities of the tail are merged on top of the version that is left. -/
theorem reinsert_spec {tail : List (UEquality Var)} {m : UnionFindModule Var}
    {pairs : List (ℕ × ℕ)} (h : Versions m.classes.history pairs)
    (htail : ∀ f ∈ tail, HasEntry m f.lhs ∧ HasEntry m f.rhs) :
    ∃ c : Backtrackable, m.reinsert tail = some { m with classes := c } ∧
      Versions c.history ((stamps m.translate tail).reverse ++ pairs) ∧
      c.size = m.classes.size := by
  induction tail generalizing m pairs with
  | nil => exact ⟨m.classes, rfl, h, rfl⟩
  | cons f tail ih =>
    obtain ⟨⟨hlhs, hrhs⟩, htail⟩ := forall_mem_cons.mp htail
    rw [reinsert]
    cases hf : f.negated with
    | true =>
      rw [stamps, equalities_cons_negated hf]
      exact ih h htail
    | false =>
      obtain ⟨c, hmerge, hvers, hsize⟩ := merge_spec h hlhs hrhs
      have htail' : ∀ g ∈ tail, HasEntry { m with classes := c } g.lhs ∧
          HasEntry { m with classes := c } g.rhs := by
        intro g hg
        simp only [hasEntry_iff, hsize]
        exact ⟨hasEntry_iff.mp (htail g hg).1, hasEntry_iff.mp (htail g hg).2⟩
      obtain ⟨c', hreinsert, hvers', hsize'⟩ :=
        ih (m := { m with classes := c }) hvers htail'
      refine ⟨c', ?_, ?_, hsize'.trans hsize⟩
      · rw [if_neg Bool.false_ne_true, hmerge]
        exact hreinsert
      · rw [stamps, equalities_cons hf, map_cons, reverse_cons, append_assoc]
        exact hvers'

/-- All variables have entries after the update, and the values that variables had are kept. -/
theorem initClasses_spec (lib : Library Var) (h : Versions m.classes.history pairs) :
    ∃ suffix, (m.initClasses lib).translate = m.translate ++ suffix ∧
      Versions (m.initClasses lib).classes.history pairs ∧
      (∀ var ∈ m.variableSet, HasEntry (m.initClasses lib) var) ∧
      ∀ var ∈ m.translate, HasEntry (m.initClasses lib) var := by
  have hins : ∀ (vars translate : List Var), ∃ suffix, vars.foldl
      (fun translate var => if var ∈ translate then translate else translate ++ [var]) translate =
        translate ++ suffix ∧ ∀ var ∈ vars, var ∈ translate ++ suffix := by
    intro vars
    induction vars with
    | nil => exact fun translate => ⟨[], by simp⟩
    | cons var vars ih =>
      intro translate
      rw [foldl_cons]
      split_ifs with hmem
      · obtain ⟨suffix, hfold, hvars⟩ := ih translate
        refine ⟨suffix, hfold, forall_mem_cons.mpr ⟨?_, hvars⟩⟩
        exact mem_append_left suffix hmem
      · obtain ⟨suffix, hfold, hvars⟩ := ih (translate ++ [var])
        rw [append_assoc] at hfold hvars
        refine ⟨[var] ++ suffix, hfold, forall_mem_cons.mpr ⟨?_, hvars⟩⟩
        simp
  obtain ⟨suffix, hfold, hvars⟩ := hins (lib.iterate m.variableSet) m.translate
  have htransl : (m.initClasses lib).translate = m.translate ++ suffix := hfold
  have hcls : (m.initClasses lib).classes =
      m.classes.initSize (m.initClasses lib).translate.length := rfl
  obtain ⟨hvers, hsize⟩ := h.initSize (m.initClasses lib).translate.length
  have hent : ∀ var ∈ (m.initClasses lib).translate, HasEntry (m.initClasses lib) var := by
    intro var hvar
    refine hasEntry_iff.mpr ⟨hvar, ?_⟩
    have hlt := idxOf_lt_length_iff.mpr hvar
    rw [hcls, hsize]
    omega
  refine ⟨suffix, htransl, hcls ▸ hvers, fun var hvar => hent var ?_, fun var hvar => hent var ?_⟩
  · rw [htransl]
    exact hvars var ((lib.iterate_perm m.variableSet).mem_iff.mpr hvar)
  · rw [htransl]
    exact mem_append_left suffix hvar

/-- What is known about the state apart from the received formulas. -/
structure Registered (m : UnionFindModule Var) : Prop where
  vertices : m.graph.vertices = m.variableSet
  updated : m.needToUpdate = false → ∀ var ∈ m.variableSet, var ∈ m.translate
  informed : ∀ e ∈ m.informed, e.negated = false

theorem Registered.process (h : m.Registered) (var : Var) : (m.process var).Registered := by
  rw [UnionFindModule.process]
  split_ifs
  · exact h
  · refine ⟨?_, nofun, h.informed⟩
    rw [EQGraph.addVertex, h.vertices]

/-- Processing a variable keeps all but the known variables. -/
theorem process_frame (m : UnionFindModule Var) (var : Var) :
    (m.process var).history = m.history ∧ (m.process var).classes = m.classes ∧
      (m.process var).translate = m.translate ∧ (m.process var).graph.edges = m.graph.edges ∧
      (m.process var).informed = m.informed ∧
      ∀ x, x ∈ (m.process var).variableSet ↔ x ∈ m.variableSet ∨ x = var := by
  rw [process]
  split_ifs with h
  · refine ⟨rfl, rfl, rfl, rfl, rfl, fun x => ⟨.inl, ?_⟩⟩
    rintro (hx | rfl)
    · exact hx
    · exact h
  · refine ⟨rfl, rfl, rfl, rfl, rfl, fun x => ?_⟩
    rw [mem_append, mem_singleton]

end UnionFindModule

/-! ## The invariant -/

namespace State

/-- The history is the received formulas; they have entries, and the versions and the edges are
those of the received equalities. -/
structure Inv (s : State Var) : Prop where
  registered : s.module.Registered
  history : s.module.history = s.received
  nodup : s.received.Nodup
  announced : ∀ f ∈ s.received, f ∈ s.announced
  known : ∀ f ∈ s.announced, f.lhs ∈ s.module.variableSet ∧ f.rhs ∈ s.module.variableSet
  edges : ∀ p, p ∈ s.module.graph.edges ↔ p ∈ equalities s.received
  entries : ∀ f ∈ s.received, HasEntry s.module f.lhs ∧ HasEntry s.module f.rhs
  versions : Versions s.module.classes.history (stamps s.module.translate s.received)

variable {s : State Var}

theorem Inv.initial : Inv (State.initial : State Var) where
  registered := ⟨rfl, fun _ _ h => absurd h not_mem_nil, fun _ h => absurd h not_mem_nil⟩
  history := rfl
  nodup := nodup_nil
  announced _ h := absurd h not_mem_nil
  known _ h := absurd h not_mem_nil
  edges _ := Iff.rfl
  entries _ h := absurd h not_mem_nil
  versions := .origin ⟨isForest_nil, classes_nil, le_rfl⟩

theorem Inv.translated (h : s.Inv) (hf : f ∈ s.received) :
    f.lhs ∈ s.module.translate ∧ f.rhs ∈ s.module.translate :=
  ⟨(hasEntry_iff.mp (h.entries f hf).1).1, (hasEntry_iff.mp (h.entries f hf).2).1⟩

/-- The classes of the values are those of the variables. -/
theorem Inv.connected_iff (h : s.Inv) {x y : Var} (hx : x ∈ s.module.translate)
    (hy : y ∈ s.module.translate) :
    Connected (stamps s.module.translate s.received) (s.module.translate.idxOf x)
      (s.module.translate.idxOf y) ↔ Connected (equalities s.received) x y :=
  connected_map_iff (S := fun x => x ∈ s.module.translate)
    (fun _ _ hx _ heq => (idxOf_inj hx).mp heq)
    (fun _ hp => h.translated (mem_equalities.mp hp)) hx hy

theorem Inv.consistent (h : s.Inv) : s.Consistent := by
  constructor
  case entries => exact h.entries
  case classes =>
    intro x y hx hy
    obtain ⟨root, hrep⟩ := h.versions.represents
    obtain ⟨c, hfindx, -⟩ := UnionFindModule.find_spec hrep hx
    obtain ⟨c', hfindy, -⟩ := UnionFindModule.find_spec hrep hy
    refine ⟨_, _, _, _, hfindx, hfindy, ?_⟩
    rw [hrep.classes]
    exact h.connected_iff (hasEntry_iff.mp hx).1 (hasEntry_iff.mp hy).1
  case graph => exact fun x y => connected_congr h.edges

theorem Inv.informCore (h : s.Inv) (settings : Settings) (f : UEquality Var) :
    Inv { s with
      module := (s.module.informCore settings f).1, announced := f :: s.announced } := by
  obtain ⟨hhistory, hcls, htransl, hedges, hinformed, hvars⟩ :=
    UnionFindModule.process_frame s.module f.lhs
  obtain ⟨hhistory', hcls', htransl', hedges', hinformed', hvars'⟩ :=
    UnionFindModule.process_frame (s.module.process f.lhs) f.rhs
  have hreg := (h.registered.process f.lhs).process f.rhs
  generalize hm : (s.module.process f.lhs).process f.rhs = m at *
  have hproc : Inv { s with module := m, announced := f :: s.announced } := by
    constructor
    case registered => exact hreg
    case history => exact (hhistory'.trans hhistory).trans h.history
    case nodup => exact h.nodup
    case announced => exact fun g hg => mem_cons_of_mem f (h.announced g hg)
    case known =>
      intro g hg
      rcases mem_cons.mp hg with rfl | hg
      · exact ⟨(hvars' _).mpr (.inl ((hvars _).mpr (.inr rfl))), (hvars' _).mpr (.inr rfl)⟩
      · exact ⟨(hvars' _).mpr (.inl ((hvars _).mpr (.inl (h.known g hg).1))),
          (hvars' _).mpr (.inl ((hvars _).mpr (.inl (h.known g hg).2)))⟩
    case edges => exact fun p => (hedges'.trans hedges) ▸ h.edges p
    case entries =>
      intro g hg
      simp only [hasEntry_iff, htransl', htransl, hcls', hcls]
      exact ⟨hasEntry_iff.mp (h.entries g hg).1, hasEntry_iff.mp (h.entries g hg).2⟩
    case versions =>
      show Versions m.classes.history (stamps m.translate s.received)
      rw [hcls'.trans hcls, htransl'.trans htransl]
      exact h.versions
  rw [UnionFindModule.informCore, hm]
  simp only
  split_ifs
  · refine { hproc with registered := ⟨hreg.vertices, hreg.updated, ?_⟩ }
    intro e he
    rcases mem_insert_iff.mp he with rfl | he
    · rfl
    · exact hreg.informed e he
  · exact hproc

/-! ## Additions -/

/-- The module after the pending update of the classes. -/
theorem Inv.initClasses (h : s.Inv) (lib : Library Var) :
    Inv { s with module := { s.module.initClasses lib with needToUpdate := false } } ∧
      ∀ var ∈ s.module.variableSet,
        HasEntry { s.module.initClasses lib with needToUpdate := false } var := by
  obtain ⟨suffix, htransl, hvers, hvars, hold⟩ :=
    UnionFindModule.initClasses_spec lib h.versions
  refine ⟨?_, hvars⟩
  constructor
  case registered => exact ⟨h.registered.vertices, fun _ var hvar => (hasEntry_iff.mp (hvars var
    hvar)).1, h.registered.informed⟩
  case history => exact h.history
  case nodup => exact h.nodup
  case announced => exact h.announced
  case known => exact h.known
  case edges => exact h.edges
  case entries => exact fun f hf => ⟨hold _ (h.translated hf).1, hold _ (h.translated hf).2⟩
  case versions =>
    show Versions _ (stamps (s.module.initClasses lib).translate s.received)
    rw [htransl, stamps_extend suffix fun f hf => h.translated hf]
    exact hvers

/-- A formula whose variables have entries, unless an update is pending, is added. -/
theorem Inv.addCore (h : s.Inv) (lib : Library Var) (settings : Settings)
    (hann : f ∈ s.announced) (hnew : f ∉ s.received)
    (hent : s.module.needToUpdate = false → HasEntry s.module f.lhs ∧ HasEntry s.module f.rhs) :
    ∃ m, s.module.addCore lib settings f = some m ∧
      Inv { s with module := m, received := f :: s.received } := by
  obtain ⟨m₀, hm₀, hinv, hlhs, hrhs⟩ : ∃ m₀ : UnionFindModule Var,
      (if s.module.needToUpdate then { s.module.initClasses lib with needToUpdate := false }
        else s.module) = m₀ ∧ Inv { s with module := m₀ } ∧ HasEntry m₀ f.lhs ∧
          HasEntry m₀ f.rhs := by
    obtain ⟨hknownl, hknownr⟩ := h.known f hann
    cases hupd : s.module.needToUpdate with
    | true =>
      obtain ⟨hinv, hvars⟩ := h.initClasses lib
      exact ⟨_, rfl, hinv, hvars _ hknownl, hvars _ hknownr⟩
    | false => exact ⟨_, rfl, h, hent hupd⟩
  have hann' : ∀ g ∈ f :: s.received, g ∈ s.announced :=
    forall_mem_cons.mpr ⟨hann, h.announced⟩
  have hknown := hinv.known
  have hverts := hinv.registered.vertices
  simp only at hknown hverts
  rw [UnionFindModule.addCore]
  simp only [hm₀]
  cases hf : f.negated with
  | true =>
    refine ⟨_, rfl, ?_⟩
    constructor
    case registered => exact ⟨hverts, hinv.registered.updated, hinv.registered.informed⟩
    case history => exact congrArg (f :: ·) hinv.history
    case nodup => exact nodup_cons.mpr ⟨hnew, h.nodup⟩
    case announced => exact hann'
    case known => exact hknown
    case edges =>
      show ∀ p, p ∈ m₀.graph.edges ↔ p ∈ equalities (f :: s.received)
      rw [equalities_cons_negated hf]
      exact hinv.edges
    case entries => exact forall_mem_cons.mpr ⟨⟨hlhs, hrhs⟩, hinv.entries⟩
    case versions =>
      show Versions m₀.classes.history (stamps m₀.translate (f :: s.received))
      rw [stamps, equalities_cons_negated hf]
      exact hinv.versions
  | false =>
    obtain ⟨c, hmerge, hvers, hsize⟩ :=
      UnionFindModule.merge_spec hinv.versions hlhs hrhs
    simp only at hmerge
    have hvtx : f.lhs ∈ m₀.graph.vertices ∧ f.rhs ∈ m₀.graph.vertices := by
      rw [hverts]
      exact hknown f hann
    have haddEdge : m₀.graph.addEdge f.lhs f.rhs =
        some { m₀.graph with edges := m₀.graph.edges ++ [(f.lhs, f.rhs)] } := if_pos hvtx
    simp only [Bool.false_eq_true, if_false, hmerge, haddEdge, bind_eq_bind, bind_some]
    refine ⟨_, rfl, ?_⟩
    constructor
    case registered =>
      refine ⟨hverts, hinv.registered.updated, fun e he => ?_⟩
      simp only at he
      split_ifs at he
      · exact hinv.registered.informed e (mem_of_mem_erase he)
      · exact hinv.registered.informed e he
    case history => exact congrArg (f :: ·) hinv.history
    case nodup => exact nodup_cons.mpr ⟨hnew, h.nodup⟩
    case announced => exact hann'
    case known => exact hknown
    case edges =>
      intro p
      simp only [equalities_cons hf, mem_append, mem_cons, not_mem_nil, or_false]
      have := hinv.edges p
      simp only at this
      rw [this]
      exact or_comm
    case entries =>
      intro g hg
      simp only [hasEntry_iff, hsize]
      rcases mem_cons.mp hg with rfl | hg
      · exact ⟨hasEntry_iff.mp hlhs, hasEntry_iff.mp hrhs⟩
      · exact ⟨hasEntry_iff.mp (hinv.entries g hg).1, hasEntry_iff.mp (hinv.entries g hg).2⟩
    case versions =>
      show Versions c.history (stamps m₀.translate (f :: s.received))
      rw [stamps, equalities_cons hf, map_cons]
      exact hvers

/-! ## Removals -/

/-- The module with the versions from before the merge of an equality. -/
def beforeMerge (m : UnionFindModule Var) (f : UEquality Var) : UnionFindModule Var :=
  { m with
    classes := m.classes.versionsBefore (m.translate.idxOf f.lhs) (m.translate.idxOf f.rhs) }

theorem takeWhile_ne_append {newer older : List (UEquality Var)}
    (hf : f ∉ newer) : (newer ++ f :: older).takeWhile (· ≠ f) = newer := by
  rw [takeWhile_append_of_pos, takeWhile_cons_of_neg, append_nil]
  · simp
  · intro g hg
    exact decide_eq_true (fun heq => hf (heq ▸ hg))

/-- A disequality is removed from the history alone. -/
theorem Inv.removeInequality (h : s.Inv) (hf : f ∈ s.received) (hneg : f.negated = true) :
    ∃ m, s.module.removeCore f = some m ∧
      Inv { s with module := m, received := s.received.erase f } := by
  have hmem : ∀ g, g ∈ s.received.erase f ↔ g ≠ f ∧ g ∈ s.received :=
    fun g => h.nodup.mem_erase_iff
  have heqs : ∀ p, p ∈ equalities (s.received.erase f) ↔ p ∈ equalities s.received := by
    intro p
    rw [mem_equalities, mem_equalities, hmem]
    refine and_iff_right ?_
    rintro rfl
    exact absurd hneg Bool.false_ne_true
  obtain ⟨newer, older, hsplit, hnewer⟩ := eq_append_cons_of_mem hf
  have herase : s.received.erase f = newer ++ older := by
    rw [hsplit, erase_append_right _ hnewer, erase_cons_head]
  rw [UnionFindModule.removeCore, if_pos (h.history ▸ hf)]
  simp only [hneg, if_true, bind_eq_bind, bind_some]
  refine ⟨_, rfl, ?_⟩
  constructor
  case registered => exact ⟨h.registered.vertices, h.registered.updated, h.registered.informed⟩
  case history => exact congrArg (List.erase · f) h.history
  case nodup => exact h.nodup.erase f
  case announced => exact fun g hg => h.announced g ((hmem g).mp hg).2
  case known => exact h.known
  case edges => exact fun p => (h.edges p).trans (heqs p).symm
  case entries => exact fun g hg => h.entries g ((hmem g).mp hg).2
  case versions =>
    have hvers := h.versions
    rw [hsplit, stamps, equalities_append, equalities_cons_negated hneg, ← equalities_append,
      ← herase] at hvers
    exact hvers

/-- Removing an edge keeps the other equalities, unless a parallel one is received. -/
theorem Inv.edges_removeEdge (h : s.Inv) (hneg : f.negated = false)
    (hmirror : f.mirror ∈ s.received → f.lhs = f.rhs) (p : Var × Var) :
    p ∈ s.module.graph.edges.filter (fun e => e ≠ (f.lhs, f.rhs) ∧ e ≠ (f.rhs, f.lhs)) ↔
      p ∈ equalities (s.received.erase f) := by
  obtain ⟨lhs, rhs, negated⟩ := f
  obtain rfl : negated = false := hneg
  obtain ⟨x, y⟩ := p
  rw [mem_filter, h.edges, mem_equalities, mem_equalities, h.nodup.mem_erase_iff]
  simp only [decide_eq_true_eq, ne_eq, UEquality.mk.injEq, and_true, Prod.mk.injEq]
  constructor
  · rintro ⟨hp, hfwd, -⟩
    exact ⟨hfwd, hp⟩
  · rintro ⟨hfwd, hp⟩
    refine ⟨hp, hfwd, ?_⟩
    rintro ⟨rfl, rfl⟩
    exact hfwd ⟨(hmirror hp).symm, hmirror hp⟩

/-- An equality is removed if the version before its merge has entries for the variables of the
other received formulas, and if no parallel edge stands for another received equality. -/
theorem Inv.removeEquality (h : s.Inv) (hf : f ∈ s.received) (hneg : f.negated = false)
    (hent : ∀ g ∈ s.received, g ≠ f →
      HasEntry (beforeMerge s.module f) g.lhs ∧ HasEntry (beforeMerge s.module f) g.rhs)
    (hmirror : f.mirror ∈ s.received → f.lhs = f.rhs) :
    ∃ m, s.module.removeCore f = some m ∧
      Inv { s with module := m, received := s.received.erase f } := by
  have hmem : ∀ g, g ∈ s.received.erase f ↔ g ≠ f ∧ g ∈ s.received :=
    fun g => h.nodup.mem_erase_iff
  obtain ⟨newer, older, hsplit, hnewer⟩ := eq_append_cons_of_mem hf
  have herase : s.received.erase f = newer ++ older := by
    rw [hsplit, erase_append_right _ hnewer, erase_cons_head]
  have hothers : ∀ g ∈ s.received.erase f, HasEntry (beforeMerge s.module f) g.lhs ∧
      HasEntry (beforeMerge s.module f) g.rhs :=
    fun g hg => hent g ((hmem g).mp hg).2 ((hmem g).mp hg).1
  -- the versions from the merge on are given up
  have hvals := stamp_not_mem (fun g hg => h.translated (hsplit ▸ mem_append_left _ hg)) hneg hnewer
  have hvers := h.versions
  rw [hsplit, stamps_append, stamps_cons _ hneg] at hvers
  obtain ⟨hbacktrack, hbef⟩ := hvers.backtrack hvals
  obtain ⟨hlhs, hrhs⟩ := h.translated hf
  have hbacktrack' : s.module.backtrack f.lhs f.rhs = some (beforeMerge s.module f) := by
    rw [UnionFindModule.backtrack, UnionFindModule.value_of_mem hlhs,
      UnionFindModule.value_of_mem hrhs, bind_some, bind_some, hbacktrack]
    rfl
  -- the edge is removed
  have hvtx : f.lhs ∈ s.module.graph.vertices ∧ f.rhs ∈ s.module.graph.vertices := by
    rw [h.registered.vertices]
    exact h.known f (h.announced f hf)
  obtain ⟨graph, hremoveEdge, hverts, hedges⟩ : ∃ graph : EQGraph Var,
      (beforeMerge s.module f).graph.removeEdge f.lhs f.rhs = some graph ∧
        graph.vertices = s.module.graph.vertices ∧
        ∀ p, p ∈ graph.edges ↔ p ∈ equalities (s.received.erase f) :=
    ⟨_, if_pos hvtx, rfl, h.edges_removeEdge hneg hmirror⟩
  -- the later equalities are merged again
  have htail : ((beforeMerge s.module f).history.takeWhile (· ≠ f)).reverse = newer.reverse := by
    show (s.module.history.takeWhile (· ≠ f)).reverse = _
    rw [h.history, hsplit, takeWhile_ne_append hnewer]
  have htailEntry : ∀ g ∈ newer.reverse, HasEntry { beforeMerge s.module f with graph := graph }
      g.lhs ∧ HasEntry { beforeMerge s.module f with graph := graph } g.rhs := by
    intro g hg
    refine hothers g ?_
    rw [herase]
    exact mem_append_left _ (mem_reverse.mp hg)
  obtain ⟨c, hreinsert, hvers', hsize⟩ := UnionFindModule.reinsert_spec
    (m := { beforeMerge s.module f with graph := graph }) hbef htailEntry
  rw [stamps_reverse, reverse_reverse] at hvers'
  rw [UnionFindModule.removeCore, if_pos (h.history ▸ hf)]
  simp only [hneg, Bool.false_eq_true, if_false, bind_eq_bind, bind_some,
    hbacktrack', hremoveEdge, htail, hreinsert]
  refine ⟨_, rfl, ?_⟩
  constructor
  case registered =>
    exact ⟨hverts.trans h.registered.vertices, h.registered.updated, h.registered.informed⟩
  case history => exact congrArg (List.erase · f) h.history
  case nodup => exact h.nodup.erase f
  case announced => exact fun g hg => h.announced g ((hmem g).mp hg).2
  case known => exact h.known
  case edges => exact hedges
  case entries =>
    intro g hg
    simp only [hasEntry_iff, hsize]
    exact ⟨hasEntry_iff.mp (hothers g hg).1, hasEntry_iff.mp (hothers g hg).2⟩
  case versions =>
    show Versions c.history (stamps s.module.translate (s.received.erase f))
    rw [herase, stamps_append]
    exact hvers'

end State

end Smtrat.UnionFind
