import Smtrat.Modules.Transformations
import Smtrat.UFCegar.Consistency

/-!
# Passed constraints

The module passes the flattened formulas and the constraints of all pairs it has treated.  Where
these are all pairs there are, the passed formulas are as satisfiable as the received ones.
-/

namespace Smtrat.UFCegar

open PropFormula ModuleInput Stores List
open Curry (UTerm UEquality Signature Interpretation)

universe u

variable {Var F S : Type u} {sig : Signature Var F S} {pool : FormulaPool FlatEquality}

/-! ## Pairs -/

section Pairs

theorem mem_dropLast_tail {A : Type*} {l : List A} {a b : A} (ha : a ∈ l) (hb : b ∈ l)
    (hne : a ≠ b) : (a ∈ l.dropLast ∧ b ∈ l.tail) ∨ (b ∈ l.dropLast ∧ a ∈ l.tail) := by
  cases l with
  | nil => cases ha
  | cons x xs =>
    have hdrop : ∀ {c}, c ∈ x :: xs → ∀ {z}, (x :: xs).getLast? = some z → c ≠ z →
        c ∈ (x :: xs).dropLast := by
      intro c hc z hz hcz
      rw [← dropLast_append_getLast? z hz] at hc
      exact (mem_append.mp hc).resolve_right fun h => hcz (mem_singleton.mp h)
    have htail : ∀ {c}, c ∈ x :: xs → c ≠ x → c ∈ xs := fun hc hcx =>
      (mem_cons.mp hc).resolve_left hcx
    obtain ⟨z, hz⟩ : ∃ z, (x :: xs).getLast? = some z :=
      ⟨_, getLast?_eq_some_getLast (cons_ne_nil x xs)⟩
    by_cases hax : a = x
    · subst hax
      have hbxs := htail hb hne.symm
      refine .inl ⟨?_, hbxs⟩
      obtain ⟨y, ys, rfl⟩ := exists_cons_of_ne_nil (ne_nil_of_mem hbxs)
      exact mem_cons_self
    · by_cases hbx : b = x
      · subst hbx
        have haxs := htail ha hne
        refine .inr ⟨?_, haxs⟩
        obtain ⟨y, ys, rfl⟩ := exists_cons_of_ne_nil (ne_nil_of_mem haxs)
        exact mem_cons_self
      · by_cases haz : a = z
        · exact .inr ⟨hdrop hb hz fun h => hne (haz.trans h.symm), htail ha hax⟩
        · exact .inl ⟨hdrop ha hz haz, htail hb hbx⟩

variable [DecidableEq F] (lib : Library Var F) {s t : Stores Var F}

theorem mem_instancesOf {f : F} {i : UFInstance Var F} :
    i ∈ instancesOf lib s f ↔ i ∈ s.instances ∧ i.uninterpretedFunction = f := by
  rw [instancesOf, (lib.sorted_perm _).mem_iff, mem_filter, decide_eq_true_iff]

theorem mem_pairs {p : InstancePair Var F} (hp : p ∈ s.pairs lib) :
    p.1 ∈ s.instances ∧ p.2 ∈ s.instances ∧
      p.1.uninterpretedFunction = p.2.uninterpretedFunction := by
  obtain ⟨f, -, hp⟩ := mem_flatMap.mp hp
  obtain ⟨i, hi, hp⟩ := mem_flatMap.mp hp
  obtain ⟨j, hj, rfl⟩ := mem_map.mp hp
  obtain ⟨hi, hfi⟩ := (mem_instancesOf lib).mp ((dropLast_sublist _).subset hi)
  obtain ⟨hj, hfj⟩ := (mem_instancesOf lib).mp (mem_of_mem_tail hj)
  exact ⟨hi, hj, hfi.trans hfj.symm⟩

theorem pairs_congr (h : t.instances = s.instances) : t.pairs lib = s.pairs lib := by
  simp only [pairs, instancesOf, h]

theorem nodup_pairs (h : s.instances.Nodup) : (s.pairs lib).Nodup := by
  have hsorted : ∀ f, (instancesOf lib s f).Nodup := fun f =>
    (lib.sorted_perm _).nodup_iff.mpr (h.filter _)
  refine nodup_flatMap.mpr ⟨fun f _ => ?_, ?_⟩
  · refine nodup_flatMap.mpr ⟨fun i _ => ?_, ?_⟩
    · exact ((hsorted f).sublist (tail_sublist _)).map fun j j' hjj => (Prod.mk.inj hjj).2
    · refine ((hsorted f).sublist (dropLast_sublist _)).imp fun hne p hp hp' => ?_
      obtain ⟨_, -, rfl⟩ := mem_map.mp hp
      obtain ⟨_, -, heq⟩ := mem_map.mp hp'
      exact hne (Prod.mk.inj heq).1.symm
  · have hfunctions := (lib.functions_perm _).nodup_iff.mpr
      (nodup_dedup (s.instances.map (·.uninterpretedFunction)))
    refine hfunctions.imp fun {f g} hne p hp hp' => hne ?_
    have hfst : ∀ {f}, p ∈ ((instancesOf lib s f).dropLast.flatMap fun i =>
        (instancesOf lib s f).tail.map fun j => (i, j)) → p.1.uninterpretedFunction = f := by
      intro f hp
      obtain ⟨i, hi, hp⟩ := mem_flatMap.mp hp
      obtain ⟨j, -, rfl⟩ := mem_map.mp hp
      exact ((mem_instancesOf lib).mp ((dropLast_sublist _).subset hi)).2
    exact (hfst hp).symm.trans (hfst hp')

theorem complete_of_pairs (h : ∀ p ∈ s.pairs lib, p ∈ s.refined) : Complete s := by
  intro i hi j hj hf hne
  have hfunction : i.uninterpretedFunction ∈
      lib.functions (s.instances.map (·.uninterpretedFunction)).dedup :=
    (lib.functions_perm _).mem_iff.mpr (mem_dedup.mpr (mem_map_of_mem hi))
  have hmem : ∀ {a b}, a ∈ (instancesOf lib s i.uninterpretedFunction).dropLast →
      b ∈ (instancesOf lib s i.uninterpretedFunction).tail → (a, b) ∈ s.pairs lib :=
    fun ha hb => mem_flatMap.mpr ⟨_, hfunction, mem_flatMap.mpr ⟨_, ha, mem_map_of_mem hb⟩⟩
  have hil := (mem_instancesOf lib).mpr ⟨hi, rfl⟩
  have hjl := (mem_instancesOf lib).mpr ⟨hj, hf.symm⟩
  rcases mem_dropLast_tail hil hjl hne with ⟨ha, hb⟩ | ⟨hb, ha⟩
  · exact .inl (h _ (hmem ha hb))
  · exact .inr (h _ (hmem hb ha))

end Pairs

/-! ## What is passed -/

/-- The stores and the passed formulas of the module, for received formulas with what has been made
of them. -/
structure Stands (sig : Signature Var F S) (pool : FormulaPool FlatEquality)
    (m : UFCegarModule Var F) (pairs : List (Transformation (UEquality Var F) FlatEquality)) :
    Prop where
  stores : m.stores.Inv sig
  flattened : ∀ p ∈ pairs, Formula.Rebuilt (FlatAtom sig m.stores) p.1 p.2
  constrainable : ∀ p ∈ m.stores.refined, m.stores.Constrainable p
  wellFormed : m.mpPassedFormula.WellFormed
  passed : ∀ g, g ∈ m.mpPassedFormula.formulas ↔ (∃ p ∈ pairs, g ∈ conjuncts (p.2.map .inr)) ∨
    ∃ p ∈ m.stores.refined, g ∈ conjuncts ((m.stores.constraintFormula pool p).map .inr)
  passes : m.stores.refined = [] → m.mpPassedFormula.Passes pairs

namespace Stands

variable {m : UFCegarModule Var F} {pairs : List (Transformation (UEquality Var F) FlatEquality)}

theorem initial : Stands sig pool (UFCegarModule.initial : UFCegarModule Var F) [] where
  stores := .initial
  flattened := nofun
  constrainable := nofun
  wellFormed := empty_wellFormed
  passed g := by simp [UFCegarModule.initial, empty, formulas, Stores.initial]
  passes _ := .empty

/-! ### Satisfiability -/

theorem forall_passed (h : Stands sig pool m pairs) (β : FlatEquality → Bool) :
    (∀ g ∈ m.mpPassedFormula.formulas, g.eval (Sum.elim (fun _ => false) β) = true) ↔
      (∀ p ∈ pairs, p.2.eval β = true) ∧
        ∀ p ∈ m.stores.refined, (m.stores.constraintFormula pool p).eval β = true := by
  constructor
  · intro hall
    refine ⟨fun p hp => ?_, fun p hp => ?_⟩
    · exact forall_conjuncts_map_inr.mp fun g hg => hall g ((h.passed g).mpr (.inl ⟨p, hp, hg⟩))
    · exact forall_conjuncts_map_inr.mp fun g hg => hall g ((h.passed g).mpr (.inr ⟨p, hp, hg⟩))
  · rintro ⟨hflat, hcons⟩ g hg
    rcases (h.passed g).mp hg with ⟨p, hp, hg⟩ | ⟨p, hp, hg⟩
    · exact forall_conjuncts_map_inr.mpr (hflat p hp) g hg
    · exact forall_conjuncts_map_inr.mpr (hcons p hp) g hg

open Classical in
/-- The passed formulas are satisfiable if the received ones are. -/
theorem passedSatisfiable (h : Stands sig pool m pairs)
    (hsat : Satisfiable sig (pairs.map (·.1))) : PassedSatisfiable m.mpPassedFormula.formulas := by
  obtain ⟨I, α, hα, hrec⟩ := hsat
  let β : FlatEquality → Bool := fun c => decide ((flatModel I m.stores).Holds c)
  have hβ : ∀ c, β c = true ↔ (flatModel I m.stores).Holds c := fun c => decide_eq_true_iff
  refine ⟨flatModel I m.stores, β, hβ, (h.forall_passed β).mpr ⟨fun p hp => ?_, fun p hp => ?_⟩⟩
  · rw [eval_flatModel h.stores hα hβ (h.flattened p hp)]
    exact hrec p.1 (mem_map_of_mem hp)
  · exact constraint_flatModel h.stores pool hβ (h.constrainable p hp)

open Classical in
/-- If all pairs have been treated, the received formulas are satisfiable if the passed ones
are. -/
theorem satisfiable (h : Stands sig pool m pairs) (hcomplete : Complete m.stores)
    (hsat : PassedSatisfiable m.mpPassedFormula.formulas) :
    Satisfiable sig (pairs.map (·.1)) := by
  obtain ⟨M, β, hβ, hpass⟩ := hsat
  obtain ⟨hflat, hcons⟩ := (h.forall_passed β).mp hpass
  have hconsis := consistent_of_complete pool hβ hcomplete hcons
  let α : UEquality Var F → Bool := fun e => decide ((interpretation sig M m.stores).Holds e)
  have hα : ∀ e, α e = true ↔ (interpretation sig M m.stores).Holds e := fun e =>
    decide_eq_true_iff
  refine ⟨interpretation sig M m.stores, α, hα, forall_mem_map.mpr fun p hp => ?_⟩
  rw [← eval_interpretation_eq h.stores hconsis hα hβ (h.flattened p hp)]
  exact hflat p hp

/-! ### Additions and removals -/

variable [DecidableEq Var] [DecidableEq F]

theorem addCore (h : Stands sig pool m pairs) {f : Formula (UEquality Var F)}
    (hf : ∀ e, f.Mentions e → e.WellFormed sig ∧ Simple e.lhs ∧ Simple e.rhs) :
    ∃ g, Stands sig pool (m.addCore pool f) ((f, g) :: pairs) := by
  obtain ⟨hgrows, hrebuilt⟩ := visit_spec pool h.stores hf
  generalize hvisit : f.visitAtoms pool (fun e s => (Formula.atom (s.flatten e).1, (s.flatten e).2))
    m.stores = r at hgrows hrebuilt
  obtain ⟨g, stores⟩ := r
  have hadd : m.addCore pool f =
      ⟨stores, (add (.single (f.map .inl)) (g.map .inr) true m.mpPassedFormula).2⟩ := by
    show UFCegarModule.mk (f.visitAtoms pool
      (fun e s => (Formula.atom (s.flatten e).1, (s.flatten e).2)) m.stores).2 _ = _
    rw [hvisit]
  obtain ⟨hwf, hmem⟩ := h.wellFormed.add (.single (f.map .inl)) (g.map .inr)
  refine ⟨g, ?_⟩
  rw [hadd]
  constructor
  case stores => exact hgrows.inv
  case flattened =>
    intro p hp
    rcases mem_cons.mp hp with rfl | hp
    · exact hrebuilt
    · exact (h.flattened p hp).mono fun _ _ hk => hk.mono hgrows.extends_
  case constrainable =>
    intro p hp
    rw [hgrows.refined] at hp
    exact (h.constrainable p hp).mono hgrows.extends_
  case wellFormed => exact hwf
  case passed =>
    intro k
    have hcons : (∃ p ∈ stores.refined,
        k ∈ conjuncts ((stores.constraintFormula pool p).map .inr)) ↔
          ∃ p ∈ m.stores.refined, k ∈ conjuncts ((m.stores.constraintFormula pool p).map .inr) := by
      rw [hgrows.refined]
      refine exists_congr fun p => and_congr_right fun hp => ?_
      rw [(h.constrainable p hp).constraintFormula_eq pool hgrows.extends_]
    rw [hmem, h.passed, hcons, exists_mem_cons_iff]
    constructor
    · rintro ((hp | hp) | hk)
      · exact .inl (.inr hp)
      · exact .inr hp
      · exact .inl (.inl hk)
    · rintro ((hk | hp) | hp)
      · exact .inr hk
      · exact .inl (.inl hp)
      · exact .inl (.inr hp)
  case passes =>
    intro href
    exact (h.passes (hgrows.refined.symm.trans href)).add (f, g)

/-- As long as no constraint has been passed, a removal is right if no other received formula is a
conjunction with the formula. -/
theorem remove (h : Stands sig pool m pairs) (href : m.stores.refined = [])
    {f : Formula (UEquality Var F)} (hpart : ∀ p ∈ pairs, p.1 ≠ f → hasPart p.1 f = false) :
    Stands sig pool (m.remove f) (pairs.filter fun p => p.1 ≠ f) := by
  have hpasses := (h.passes href).remove hpart
  constructor
  case stores => exact h.stores
  case flattened => exact fun p hp => h.flattened p (mem_of_mem_filter hp)
  case constrainable => exact h.constrainable
  case wellFormed => exact hpasses.represents.wellFormed
  case passed =>
    intro k
    have hnone : ¬ ∃ p ∈ m.stores.refined,
        k ∈ conjuncts ((m.stores.constraintFormula pool p).map .inr) := by
      rw [href]
      simp
    exact hpasses.mem_formulas.trans (or_iff_left hnone).symm
  case passes => exact fun _ => hpasses

/-! ### Constraints -/

/-- The constraint of a pair of applications is passed. -/
theorem constrain (h : Stands sig pool m pairs)
    {record : UTerm Var F → Stores Var F → Stores Var F}
    (hrecord : ∀ v s, record (.var v) s = s) {p : InstancePair Var F}
    (hfst : p.1 ∈ m.stores.instances) (hsnd : p.2 ∈ m.stores.instances)
    (hsame : p.1.uninterpretedFunction = p.2.uninterpretedFunction) :
    Stands sig pool (m.constrain pool record p) pairs ∧
      (m.constrain pool record p).stores.refined = p :: m.stores.refined ∧
        (m.constrain pool record p).stores.instances = m.stores.instances := by
  have hvars : ∀ q ∈ p.1.args.zip p.2.args, (∃ v, q.1 = .var v) ∧ ∃ v, q.2 = .var v := by
    intro q hq
    obtain ⟨hq₁, hq₂⟩ := of_mem_zip hq
    exact ⟨(h.stores.admissible ((h.stores.instances _).mp hfst)).2 q.1 hq₁,
      (h.stores.admissible ((h.stores.instances _).mp hsnd)).2 q.2 hq₂⟩
  obtain ⟨hgrows, heqs, hnamed, hinsts⟩ := flattenArgs_spec hrecord hvars h.stores
  generalize hflatten : flattenArgs record (p.1.args.zip p.2.args) m.stores = r at *
  obtain ⟨eqs, stores⟩ := r
  obtain rfl : eqs = stores.argumentEqualities (p.1.args.zip p.2.args) := heqs
  have hp : stores.Constrainable p :=
    ⟨hsame, hgrows.extends_.named ((h.stores.instances _).mp hfst),
      hgrows.extends_.named ((h.stores.instances _).mp hsnd), hnamed⟩
  have hconstrain : m.constrain pool record p =
      ⟨{ stores with refined := p :: stores.refined },
        (add (.shared none) ((stores.constraintFormula pool p).map .inr) true
          m.mpPassedFormula).2⟩ := by
    rw [UFCegarModule.constrain, hflatten]
    dsimp only
    rw [createFunctionalConstraint, flattenTerm_of_named hp.fst]
    dsimp only
    rw [flattenTerm_of_named hp.snd]
    rfl
  obtain ⟨hwf, hmem⟩ :=
    h.wellFormed.add (.shared none) ((stores.constraintFormula pool p).map .inr)
  have href : stores.refined = m.stores.refined := hgrows.refined
  rw [hconstrain]
  refine ⟨?_, congrArg _ href, hinsts⟩
  constructor
  case stores =>
    have hinv := hgrows.inv
    exact ⟨hinv.below, hinv.injective, hinv.instances, hinv.nodup, hinv.formulas,
      hinv.admissible, hinv.pending⟩
  case flattened =>
    exact fun q hq => (h.flattened q hq).mono fun _ _ hk => hk.mono hgrows.extends_
  case constrainable =>
    intro q hq
    have hconstrainable : stores.Constrainable q := by
      rcases mem_cons.mp hq with rfl | hq
      · exact hp
      · exact (h.constrainable q (href ▸ hq)).mono hgrows.extends_
    exact ⟨hconstrainable.sameFunction, hconstrainable.fst, hconstrainable.snd, hconstrainable.args⟩
  case wellFormed => exact hwf
  case passed =>
    intro k
    have hold : (∃ q ∈ stores.refined,
        k ∈ conjuncts ((stores.constraintFormula pool q).map .inr)) ↔
          ∃ q ∈ m.stores.refined, k ∈ conjuncts ((m.stores.constraintFormula pool q).map .inr) := by
      rw [href]
      refine exists_congr fun q => and_congr_right fun hq => ?_
      rw [(h.constrainable q hq).constraintFormula_eq pool hgrows.extends_]
    have hnew : (∃ q ∈ p :: stores.refined,
        k ∈ conjuncts ((stores.constraintFormula pool q).map .inr)) ↔
          k ∈ conjuncts ((stores.constraintFormula pool p).map .inr) ∨
            ∃ q ∈ stores.refined, k ∈ conjuncts ((stores.constraintFormula pool q).map .inr) :=
      exists_mem_cons_iff ..
    refine (hmem k).trans (Iff.trans ?_ (or_congr_right hnew).symm)
    rw [h.passed, hold, or_assoc, or_comm (b := k ∈ _)]
  case passes => exact nofun

end Stands

end Smtrat.UFCegar
