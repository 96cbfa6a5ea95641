import Smtrat.Common.Run
import Smtrat.UnionFind.Invariant

/-!
# Checks

A check compares the representatives of the sides of disequalities, which compresses paths of the
current version, and reads explanations and lemmas from paths of the graph.
-/

namespace Smtrat.UnionFind

open ParentForest Backtrackable List Option

universe u v

variable {Var : Type u}

variable {D : Type v}

theorem Library.formula_holds (lib : Library Var) (x y : Var) (val : Var → D) :
    (lib.formula x y false).Holds val ↔ val x = val y := by
  rw [UEquality.Holds, formula, if_neg Bool.false_ne_true]
  rcases lib.sides_eq x y with heq | heq
  · rw [heq]
  · rw [heq]
    exact eq_comm

theorem Library.formula_negated_holds (lib : Library Var) (x y : Var) (val : Var → D) :
    (lib.formula x y true).Holds val ↔ val x ≠ val y := by
  rw [UEquality.Holds, formula, if_pos rfl]
  rcases lib.sides_eq x y with heq | heq
  · rw [heq]
  · rw [heq]
    exact ne_comm

variable [DecidableEq Var]

namespace State

variable {s : State Var} {lib : Library Var} {settings : Settings} {c : Backtrackable}
  {root : ℕ → ℕ}

/-- The classes as the finds of a check leave them: with shorter paths. -/
structure Compressed (s : State Var) (root : ℕ → ℕ) (c : Backtrackable) : Prop where
  represents : c.Represents root (stamps s.module.translate s.received)
  size_eq : c.size = s.module.classes.size

theorem Inv.compressed (h : s.Inv) : ∃ root, Compressed s root s.module.classes := by
  obtain ⟨root, hrep⟩ := h.versions.represents
  exact ⟨root, hrep, rfl⟩

variable {x : Var}

theorem Compressed.find (hc : Compressed s root c) (hx : HasEntry s.module x) :
    ∃ c', UnionFindModule.find { s.module with classes := c } x =
        some ({ s.module with classes := c' }, root (s.module.translate.idxOf x)) ∧
      Compressed s root c' := by
  have hx' : HasEntry { s.module with classes := c } x := by
    simp only [hasEntry_iff, hc.size_eq]
    exact hasEntry_iff.mp hx
  obtain ⟨c', hfind, hrep, hsize⟩ :=
    UnionFindModule.find_spec (m := { s.module with classes := c }) hc.represents hx'
  exact ⟨c', hfind, hrep, hsize.trans hc.size_eq⟩

variable {y : Var}

theorem Compressed.root_eq_iff (hc : Compressed s root c) (h : s.Inv)
    (hx : HasEntry s.module x) (hy : HasEntry s.module y) :
    root (s.module.translate.idxOf x) = root (s.module.translate.idxOf y) ↔
      Connected (equalities s.received) x y :=
  (hc.represents.classes _ _).trans (h.connected_iff (hasEntry_iff.mp hx).1 (hasEntry_iff.mp hy).1)

/-! ## Paths -/

/-- There are paths between variables that the received equalities connect. -/
theorem Inv.getPath (h : s.Inv) (hx : x ∈ s.module.variableSet)
    (hxy : Connected (equalities s.received) x y) (bound : Option ℕ) :
    ∃ p, s.module.graph.getPath x y bound = some p ∧ (bound = none → p.isSome = true) ∧
      ∀ path, p = some path → s.module.graph.IsPath y path x := by
  refine EQGraph.getPath_spec (fun e he => ?_) ?_ ((connected_congr h.edges).mpr hxy) bound
  · rw [h.registered.vertices]
    exact h.known _ (h.announced _ (mem_equalities.mp ((h.edges e).mp he)))
  · rw [h.registered.vertices]
    exact hx

/-- The edges of a path are received equalities, read in one direction or the other. -/
theorem Inv.exists_received (h : s.Inv) (hxy : x ∈ s.module.graph.adjacent y) :
    (⟨x, y, false⟩ : UEquality Var) ∈ s.received ∨ (⟨y, x, false⟩ : UEquality Var) ∈ s.received := by
  rcases EQGraph.mem_adjacent.mp hxy with he | he
  · exact .inr (mem_equalities.mp ((h.edges _).mp he))
  · exact .inl (mem_equalities.mp ((h.edges _).mp he))

variable {path : List (Var × Var)}

/-- All vertices of a path are connected with its end. -/
theorem Inv.connected_of_path (h : s.Inv) (hpath : s.module.graph.IsPath y path x) : ∀ e ∈ path,
      Connected (equalities s.received) x e.1 ∧ Connected (equalities s.received) x e.2 := by
  have hedge : ∀ e ∈ path, Connected (equalities s.received) e.1 e.2 := by
    intro e he
    rcases h.exists_received (hpath.adjacent e he) with hrec | hrec
    · exact Connected.of_mem (mem_equalities.mpr hrec)
    · exact (Connected.of_mem (mem_equalities.mpr hrec)).symm
  induction path generalizing y with
  | nil => exact fun e he => absurd he not_mem_nil
  | cons e path ih =>
    obtain ⟨rfl, -, hpath⟩ := hpath
    obtain ⟨hfst, hedges⟩ := forall_mem_cons.mp hedge
    have hend : Connected (equalities s.received) x e.2 := by
      have hlift := hpath.lift (f := fun z => Connected (equalities s.received) x z)
        fun d hd => propext ⟨fun hx => hx.trans (hedges d hd), fun hx => hx.trans (hedges d hd).symm⟩
      exact hlift ▸ Connected.refl _ x
    exact forall_mem_cons.mpr ⟨⟨hend.trans hfst.symm, hend⟩, ih hpath hedges⟩

/-! ## The history -/

/-- The outcome of the loop over some of the received formulas. -/
def Explained (lib : Library Var) (s : State Var) (fs : List (UEquality Var)) (answer : Answer)
    (subsets : List (List (UEquality Var))) : Prop :=
  (answer = .sat ∧ ∀ f ∈ fs, f.negated = true → ¬ Connected (equalities s.received) f.lhs f.rhs) ∨
    answer = .unsat ∧ ∃ f ∈ fs, f.negated = true ∧
      Connected (equalities s.received) f.lhs f.rhs ∧ ∃ path,
        s.module.graph.IsPath f.rhs path f.lhs ∧
          subsets = [f :: path.map fun e => lib.formula e.1 e.2 false]

theorem Inv.checkHistory (h : s.Inv) (lib : Library Var) {fs : List (UEquality Var)}
    (hfs : ∀ f ∈ fs, f ∈ s.received) (hc : Compressed s root c) :
    ∃ c' answer subsets,
      UnionFindModule.checkHistory lib { s.module with classes := c } fs =
        some ({ s.module with classes := c' }, answer, subsets) ∧
      Compressed s root c' ∧ Explained lib s fs answer subsets := by
  induction fs generalizing c with
  | nil => exact ⟨c, .sat, [], rfl, hc, .inl ⟨rfl, fun f hf => absurd hf not_mem_nil⟩⟩
  | cons f fs ih =>
    obtain ⟨hf, hfs⟩ := forall_mem_cons.mp hfs
    obtain ⟨hlhs, hrhs⟩ := h.entries f hf
    -- the outcome for the rest is one for all if `f` is not contradicted
    have hrest : (f.negated = true → ¬ Connected (equalities s.received) f.lhs f.rhs) →
        ∀ {answer subsets}, Explained lib s fs answer subsets →
          Explained lib s (f :: fs) answer subsets := by
      rintro hnot answer subsets (⟨hsat, hnone⟩ | ⟨hunsat, g, hg, hconf⟩)
      · exact .inl ⟨hsat, forall_mem_cons.mpr ⟨hnot, hnone⟩⟩
      · exact .inr ⟨hunsat, g, mem_cons_of_mem f hg, hconf⟩
    rw [UnionFindModule.checkHistory]
    cases hneg : f.negated with
    | false =>
      rw [if_neg Bool.false_ne_true]
      obtain ⟨c', answer, subsets, hchk, hc', hexpl⟩ := ih hfs hc
      refine ⟨c', answer, subsets, hchk, hc', hrest ?_ hexpl⟩
      rw [hneg]
      exact fun hfalse => absurd hfalse Bool.false_ne_true
    | true =>
      obtain ⟨c₁, hfindl, hc₁⟩ := hc.find hlhs
      obtain ⟨c₂, hfindr, hc₂⟩ := hc₁.find hrhs
      have hiff := hc.root_eq_iff h hlhs hrhs
      simp only [if_true, hfindl, hfindr, bind_eq_bind, bind_some]
      split_ifs with hroot
      · have hconn := hiff.mp hroot
        obtain ⟨hknown, -⟩ := h.known f (h.announced f hf)
        obtain ⟨p, hgetPath, hsome, hpath⟩ := h.getPath hknown hconn none
        obtain ⟨path, rfl⟩ := isSome_iff_exists.mp (hsome rfl)
        refine ⟨c₂, .unsat, _, ?_, hc₂, .inr ⟨rfl, f, mem_cons_self, hneg, hconn,
          path, hpath path rfl, rfl⟩⟩
        simp only [UnionFindModule.generateInfeasibleSubset, hgetPath, bind_eq_bind, bind_some]
      · obtain ⟨c', answer, subsets, hchk, hc', hexpl⟩ := ih hfs hc₂
        exact ⟨c', answer, subsets, hchk, hc', hrest (fun _ hcon => hroot (hiff.mpr hcon)) hexpl⟩

/-! ## Lemmas -/

/-- The clause holds in every model of equality. -/
def Valid (clause : List (UEquality Var)) : Prop :=
  ∀ (D : Type v) (val : Var → D), ∃ f ∈ clause, f.Holds val

/-- A path implies the equality of its ends. -/
theorem valid_transitivity {g : EQGraph Var} {ueq : UEquality Var}
    (hpath : g.IsPath ueq.rhs path ueq.lhs) (hneg : ueq.negated = false) :
    Valid.{u, v} ((path.map fun e => lib.formula e.1 e.2 true) ++ [ueq]) := by
  intro D val
  by_cases hedges : ∀ e ∈ path, val e.1 = val e.2
  · refine ⟨ueq, mem_append_right _ (mem_singleton_self ueq), ?_⟩
    rw [UEquality.Holds, hneg, if_neg Bool.false_ne_true]
    exact (hpath.lift hedges).symm
  · push Not at hedges
    obtain ⟨e, he, hne⟩ := hedges
    exact ⟨_, mem_append_left _ (List.mem_map_of_mem (f := fun e => lib.formula e.1 e.2 true) he),
      (lib.formula_negated_holds e.1 e.2 val).mpr hne⟩

/-- What theory propagation needs: the informed equalities that it looks at have entries. -/
def Propagable (settings : Settings) (s : State Var) : Prop :=
  settings.useTheoryPropagation = true → ∀ e ∈ s.module.informed,
    e.lhs ∈ s.module.translate → e.rhs ∈ s.module.translate →
      HasEntry s.module e.lhs ∧ HasEntry s.module e.rhs

theorem Inv.propagateEquality (h : s.Inv) (lib : Library Var) (settings : Settings) {ueq : UEquality Var} (hneg : ueq.negated = false)
    (hent : ueq.lhs ∈ s.module.translate → ueq.rhs ∈ s.module.translate →
      HasEntry s.module ueq.lhs ∧ HasEntry s.module ueq.rhs) (hc : Compressed s root c) :
    ∃ c' lemmas,
      UnionFindModule.propagateEquality lib settings { s.module with classes := c } ueq =
        some ({ s.module with classes := c' }, lemmas) ∧
      Compressed s root c' ∧ ∀ clause ∈ lemmas, Valid.{u, v} clause := by
  have hnone : ∀ clause ∈ ([] : List (List (UEquality Var))), Valid.{u, v} clause :=
    fun clause hcl => absurd hcl not_mem_nil
  rw [UnionFindModule.propagateEquality, UnionFindModule.induced]
  by_cases hvars : ueq.lhs ∈ s.module.variableSet ∧ ueq.rhs ∈ s.module.variableSet
  · rw [if_pos hvars]
    by_cases htransl : ueq.lhs ∈ s.module.translate ∧ ueq.rhs ∈ s.module.translate
    · obtain ⟨hlhs, hrhs⟩ := hent htransl.1 htransl.2
      obtain ⟨c₁, hfindl, hc₁⟩ := hc.find hlhs
      obtain ⟨c₂, hfindr, hc₂⟩ := hc₁.find hrhs
      simp only [htransl, and_self, if_true, hfindl, hfindr, bind_eq_bind, bind_some]
      by_cases hroot : root (s.module.translate.idxOf ueq.lhs) =
          root (s.module.translate.idxOf ueq.rhs)
      · have hconn := (hc.root_eq_iff h hlhs hrhs).mp hroot
        obtain ⟨p, hgetPath, -, hpath⟩ :=
          h.getPath hvars.1 hconn (some settings.lemmaLengthBound)
        simp only [hroot, decide_true, if_true, hgetPath, bind_some]
        cases p with
        | none => exact ⟨c₂, [], rfl, hc₂, hnone⟩
        | some path =>
          refine ⟨c₂, _, rfl, hc₂, fun clause hcl => ?_⟩
          rw [mem_singleton.mp hcl]
          exact valid_transitivity (hpath path rfl) hneg
      · simp only [hroot, decide_false, Bool.false_eq_true, if_false]
        exact ⟨c₂, [], rfl, hc₂, hnone⟩
    · simp only [htransl, if_false, bind_eq_bind, bind_some, Bool.false_eq_true]
      exact ⟨c, [], rfl, hc, hnone⟩
  · rw [if_neg hvars]
    exact ⟨c, [], rfl, hc, hnone⟩

theorem Inv.propagateInducesEqualities (h : s.Inv) (lib : Library Var) (settings : Settings) {es : List (UEquality Var)}
    (hes : ∀ e ∈ es, e.negated = false ∧ (e.lhs ∈ s.module.translate →
      e.rhs ∈ s.module.translate → HasEntry s.module e.lhs ∧ HasEntry s.module e.rhs))
    (hc : Compressed s root c) :
    ∃ c' lemmas,
      UnionFindModule.propagateInducesEqualities lib settings { s.module with classes := c } es =
        some ({ s.module with classes := c' }, lemmas) ∧
      Compressed s root c' ∧ ∀ clause ∈ lemmas, Valid.{u, v} clause := by
  induction es generalizing c with
  | nil => exact ⟨c, [], rfl, hc, fun clause hcl => absurd hcl not_mem_nil⟩
  | cons e es ih =>
    obtain ⟨⟨hneg, hent⟩, hes⟩ := forall_mem_cons.mp hes
    obtain ⟨c₁, lemmas₁, hfst, hc₁, hvalid₁⟩ :=
      h.propagateEquality lib settings hneg hent hc
    obtain ⟨c₂, lemmas₂, hrest, hc₂, hvalid₂⟩ := ih hes hc₁
    refine ⟨c₂, lemmas₁ ++ lemmas₂, ?_, hc₂, fun clause hcl => ?_⟩
    · simp only [UnionFindModule.propagateInducesEqualities, hfst, hrest, bind_eq_bind, bind_some]
    · rcases mem_append.mp hcl with hcl | hcl
      · exact hvalid₁ clause hcl
      · exact hvalid₂ clause hcl

/-! ## The check -/

/-- The received equalities between variables that contradict a received disequality are the
formulas that are built from their sides, whichever comes first. -/
def Oriented (lib : Library Var) (s : State Var) : Prop :=
  ∀ f ∈ s.received, f.negated = true → Connected (equalities s.received) f.lhs f.rhs →
    ∀ e ∈ s.received, e.negated = false → Connected (equalities s.received) f.lhs e.lhs →
      lib.formula e.lhs e.rhs false = e ∧ lib.formula e.rhs e.lhs false = e

/-- The explanation of a contradicted disequality is a part of the received formulas. -/
theorem Inv.explanation_subset (h : s.Inv) (horiented : Oriented lib s) {f : UEquality Var}
    (hf : f ∈ s.received) (hneg : f.negated = true)
    (hconn : Connected (equalities s.received) f.lhs f.rhs)
    (hpath : s.module.graph.IsPath f.rhs path f.lhs) :
    (f :: path.map fun e => lib.formula e.1 e.2 false) ⊆ s.received := by
  refine cons_subset.mpr ⟨hf, fun g hg => ?_⟩
  obtain ⟨e, he, rfl⟩ := List.mem_map.mp hg
  obtain ⟨hfst, hsnd⟩ := h.connected_of_path hpath e he
  rcases h.exists_received (hpath.adjacent e he) with hrec | hrec
  · obtain ⟨hfwd, -⟩ := horiented f hf hneg hconn _ hrec rfl hfst
    exact hfwd ▸ hrec
  · obtain ⟨-, hbackward⟩ := horiented f hf hneg hconn _ hrec rfl hsnd
    exact hbackward ▸ hrec

/-- The explanation of a disequality is unsatisfiable. -/
theorem explanation_unsatisfiable {g : EQGraph Var} {f : UEquality Var} (hneg : f.negated = true)
    (hpath : g.IsPath f.rhs path f.lhs) (val : Var → D) :
    ∃ e ∈ f :: path.map fun e => lib.formula e.1 e.2 false, ¬ e.Holds val := by
  by_contra hall
  push Not at hall
  obtain ⟨hf, hedges⟩ := forall_mem_cons.mp hall
  rw [UEquality.Holds, if_pos hneg] at hf
  refine hf (hpath.lift fun e he => ?_).symm
  exact (lib.formula_holds e.1 e.2 val).mp (hedges _ (List.mem_map_of_mem he))

theorem Inv.checkCore (h : s.Inv) (lib : Library Var) (settings : Settings)
    (hpropagable : Propagable settings s) (horiented : Oriented lib s) :
    ∃ m result, s.module.checkCore lib settings = some (m, result) ∧
      Inv { s with module := m } ∧ Decides.{u, v} s result := by
  obtain ⟨root, hc⟩ := h.compressed
  have hprop : ∃ c lemmas, (if settings.useTheoryPropagation = true then
      s.module.propagateInducesEqualities lib settings (lib.iterate s.module.informed)
        else some (s.module, [])) = some ({ s.module with classes := c }, lemmas) ∧
      Compressed s root c ∧ ∀ clause ∈ lemmas, Valid.{u, v} clause := by
    split_ifs with hthy
    · refine h.propagateInducesEqualities lib settings (fun e he => ?_) hc
      have he := (lib.iterate_perm s.module.informed).mem_iff.mp he
      exact ⟨h.registered.informed e he, hpropagable hthy e he⟩
    · exact ⟨s.module.classes, [], rfl, hc, fun _ hcl => absurd hcl not_mem_nil⟩
  obtain ⟨c, lemmas, hprop, hc, hvalid⟩ := hprop
  have hhistory : ∀ f ∈ s.module.history.reverse, f ∈ s.received :=
    fun f hf => h.history ▸ mem_reverse.mp hf
  obtain ⟨c', answer, subsets, hchk, hc', hexpl⟩ := h.checkHistory lib hhistory hc
  refine ⟨{ s.module with classes := c' }, ⟨answer, subsets, lemmas⟩, ?_, ?_, ?_⟩
  · rw [UnionFindModule.checkCore]
    by_cases hthy : settings.useTheoryPropagation = true
    · rw [if_pos hthy] at hprop ⊢
      simp only [hprop, bind_eq_bind, bind_some, hchk]
    · rw [if_neg hthy] at hprop ⊢
      obtain ⟨hmodule, rfl⟩ := Prod.mk.inj (some.inj hprop)
      rw [← hmodule] at hchk
      simp only [bind_eq_bind, bind_some, hchk]
  · constructor
    case registered => exact ⟨h.registered.vertices, h.registered.updated, h.registered.informed⟩
    case history => exact h.history
    case nodup => exact h.nodup
    case announced => exact h.announced
    case known => exact h.known
    case edges => exact h.edges
    case entries =>
      intro f hf
      simp only [hasEntry_iff, hc'.size_eq]
      exact ⟨hasEntry_iff.mp (h.entries f hf).1, hasEntry_iff.mp (h.entries f hf).2⟩
    case versions => exact hc'.represents.1
  · have hall : ∀ f ∈ s.received, f ∈ s.module.history.reverse :=
      fun f hf => mem_reverse.mpr (h.history.symm ▸ hf)
    rcases hexpl with ⟨rfl, hnone⟩ | ⟨rfl, f, hf, hneg, hconn, path, hpath, rfl⟩
    · refine ⟨.inl rfl, ⟨fun h => (by cases h), ?_⟩, fun h => (by cases h), hvalid⟩
      rintro ⟨f, hf, hneg, hconn⟩
      exact absurd hconn (hnone f (hall f hf) hneg)
    · have hf := hhistory f hf
      refine ⟨.inr rfl, ⟨fun _ => ⟨f, hf, hneg, hconn⟩, fun _ => rfl⟩, fun _ => ?_, hvalid⟩
      exact ⟨_, rfl, h.explanation_subset horiented hf hneg hconn hpath,
        fun D val => explanation_unsatisfiable hneg hpath val⟩

end State

end Smtrat.UnionFind

/-!
## Runs

The bookkeeping is right as long as the versions that removals fall back to have the entries that
are needed, and no removal takes a parallel edge from the graph that still stands for a received
equality.
-/

namespace Smtrat.UnionFind

open ParentForest Backtrackable Option

universe u v

variable {Var : Type u} [DecidableEq Var] (lib : Library Var) (settings : Settings)

namespace State

/-- The actions that keep the bookkeeping right.

* The variables of an added formula have entries, unless an update is pending.
* The version before the merge of a removed equality has entries for the other received formulas,
  and its mirror image is not received.
* A check finds entries where it looks, and explains conflicts by received formulas. -/
def Careful (s : State Var) : Action Var → Prop
  | .inform _ => True
  | .add f => f ∈ s.announced ∧ f ∉ s.received ∧
      (s.module.needToUpdate = false → HasEntry s.module f.lhs ∧ HasEntry s.module f.rhs)
  | .remove f => f ∈ s.received ∧ (f.negated = false →
      (∀ g ∈ s.received, g ≠ f →
        HasEntry (beforeMerge s.module f) g.lhs ∧ HasEntry (beforeMerge s.module f) g.rhs) ∧
      (f.mirror ∈ s.received → f.lhs = f.rhs))
  | .check => Propagable settings s ∧ Oriented lib s

variable {lib settings}

theorem Inv.step {s : State Var} (h : s.Inv) {a : Action Var} (ha : Careful lib settings s a) :
    ∃ s', step lib settings s a = some s' ∧ s'.Inv := by
  cases a with
  | inform f => exact ⟨_, rfl, h.informCore settings f⟩
  | add f =>
    obtain ⟨m, hadd, hinv⟩ := h.addCore lib settings ha.1 ha.2.1 ha.2.2
    exact ⟨_, by rw [State.step, hadd, map_some], hinv⟩
  | remove f =>
    obtain ⟨hf, hcare⟩ := ha
    obtain ⟨m, hrem, hinv⟩ : ∃ m, s.module.removeCore f = some m ∧
        Inv { s with module := m, received := s.received.erase f } := by
      cases hneg : f.negated with
      | true => exact h.removeInequality hf hneg
      | false => exact h.removeEquality hf hneg (hcare hneg).1 (hcare hneg).2
    exact ⟨_, by rw [State.step, hrem, map_some], hinv⟩
  | check =>
    obtain ⟨m, result, hchk, hinv, -⟩ := Inv.checkCore.{u, 0} h lib settings ha.1 ha.2
    exact ⟨_, by rw [State.step, hchk, map_some], hinv⟩

variable (lib settings)

/-- In all runs of actions that meet a condition, the bookkeeping is right, no such action fails,
and checks decide the received formulas. -/
def Meets (allowed : State Var → Action Var → Prop) [∀ s a, Decidable (allowed s a)] : Prop :=
  ∀ as s, Run.run (Run.guarded allowed (step lib settings)) initial as = some s →
    s.Consistent ∧ (∀ a, allowed s a → (step lib settings s a).isSome = true) ∧
      (allowed s .check → ∀ m result, s.module.checkCore lib settings = some (m, result) →
        Decides.{u, v} s result)

open Classical in
/-- The bookkeeping is right in all runs of careful actions. -/
theorem meets_careful : Meets.{u, v} lib settings (Careful lib settings) := by
  intro as s hrun
  have hinv : s.Inv := by
    refine Run.guarded_invariant (P := Inv) (fun s a s' hs ha hstep => ?_) Inv.initial hrun
    obtain ⟨s₁, hs₁, hinv⟩ := hs.step ha
    rw [hstep, some.injEq] at hs₁
    exact hs₁ ▸ hinv
  refine ⟨hinv.consistent, fun a ha => ?_, fun ha m result hchk => ?_⟩
  · obtain ⟨s', hs', -⟩ := hinv.step ha
    rw [hs']
    rfl
  · obtain ⟨m', result', hchk', -, hdec⟩ := hinv.checkCore lib settings ha.1 ha.2
    rw [hchk, some.injEq, Prod.mk.injEq] at hchk'
    exact hchk'.2 ▸ hdec

end State

/-! ## A version without entries -/

section Examples

open State

instance (s : State Var) : (a : Action Var) → Decidable (Permitted s a)
  | .inform _ => inferInstanceAs (Decidable True)
  | .add f => inferInstanceAs (Decidable (f ∈ s.announced ∧ f ∉ s.received))
  | .remove f => inferInstanceAs (Decidable (f ∈ s.received))
  | .check => inferInstanceAs (Decidable True)

/-- Hash sets in the order of insertion, and equalities with the smaller side first. -/
def sorting : Library ℕ where
  iterate l := l
  iterate_perm l := .refl l
  sides x y := if x ≤ y then (x, y) else (y, x)
  sides_eq x y := by
    split_ifs
    · exact .inl rfl
    · exact .inr rfl

def equality : UEquality ℕ := ⟨0, 1, false⟩

def disequality : UEquality ℕ := ⟨2, 3, true⟩

/-- The variables of the disequality get their entries after the equality was merged. -/
def growThenRemove : List (Action ℕ) :=
  [.inform equality, .add equality, .inform disequality, .add disequality, .remove equality]

/-- The removal falls back to a version without an entry for a variable of the disequality. -/
theorem not_meets_permitted : ¬ Meets.{0, 0} sorting settings1 Permitted := by
  intro hmeets
  have hrun : ∃ s, Run.run (Run.guarded Permitted (step sorting settings1)) State.initial
      growThenRemove = some s ∧ disequality ∈ s.received ∧
        ¬ (3 ∈ s.module.translate ∧ s.module.translate.idxOf 3 < s.module.classes.size) :=
    ⟨_, rfl, by decide, by decide⟩
  obtain ⟨s, hs, hrec, hent⟩ := hrun
  exact hent (hasEntry_iff.mp ((hmeets growThenRemove s hs).1.entries disequality hrec).2)

end Examples

end Smtrat.UnionFind
