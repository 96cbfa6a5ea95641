import Smtrat.UFCegar.Constraints

/-!
# Checks and runs

Eager checks stop at the first pair that an earlier check has treated, and the refinement ends
where it cannot tell whether the model is one of the received formulas.  Removals take the
constraints away, which are never passed again.
-/

namespace Smtrat.UFCegar

open PropFormula ModuleInput Stores List Option
open Curry (UTerm UEquality Signature Interpretation)

universe u v

variable {Var F S : Type u} {β : Type v} {sig : Signature Var F S}
  {pool : FormulaPool FlatEquality} [DecidableEq Var] [DecidableEq F]

/-! ## Treating pairs -/

theorem dropWhile_congr {A : Type*} {l : List A} {p q : A → Bool} (h : ∀ a ∈ l, p a = q a) :
    l.dropWhile p = l.dropWhile q := by
  induction l with
  | nil => rfl
  | cons a l ih =>
    rw [dropWhile_cons, dropWhile_cons, h a mem_cons_self,
      ih fun b hb => h b (mem_cons_of_mem a hb)]

namespace Stands

variable {m : UFCegarModule Var F} {pairs : List (Transformation (UEquality Var F) FlatEquality)}

/-- The module after some pairs have been treated. -/
structure Refines (sig : Signature Var F S) (pool : FormulaPool FlatEquality)
    (m m' : UFCegarModule Var F)
    (pairs : List (Transformation (UEquality Var F) FlatEquality)) : Prop where
  stands : Stands sig pool m' pairs
  instances : m'.stores.instances = m.stores.instances
  refined : ∀ p ∈ m.stores.refined, p ∈ m'.stores.refined

omit [DecidableEq Var] [DecidableEq F] in
theorem Refines.trans {m' m'' : UFCegarModule Var F} (h : Refines sig pool m m' pairs)
    (h' : Refines sig pool m' m'' pairs) : Refines sig pool m m'' pairs :=
  ⟨h'.stands, h'.instances.trans h.instances, fun p hp => h'.refined p (h.refined p hp)⟩

/-- Pairs of applications of one function. -/
def IsPairs (m : UFCegarModule Var F) (ps : List (InstancePair Var F)) : Prop :=
  ∀ p ∈ ps, p.1 ∈ m.stores.instances ∧ p.2 ∈ m.stores.instances ∧
    p.1.uninterpretedFunction = p.2.uninterpretedFunction

theorem refines_constrain (h : Stands sig pool m pairs)
    (record : UTerm Var F → Stores Var F → Stores Var F)
    (hrecord : ∀ v s, record (.var v) s = s) {p : InstancePair Var F}
    (hp : p.1 ∈ m.stores.instances ∧ p.2 ∈ m.stores.instances ∧
      p.1.uninterpretedFunction = p.2.uninterpretedFunction) :
    Refines sig pool m (m.constrain pool record p) pairs ∧
      (m.constrain pool record p).stores.refined = p :: m.stores.refined := by
  obtain ⟨hstands, href, hinsts⟩ := h.constrain hrecord hp.1 hp.2.1 hp.2.2
  refine ⟨⟨hstands, hinsts, fun q hq => ?_⟩, href⟩
  rw [href]
  exact mem_cons_of_mem p hq

/-- If no pair is left after the first one that has been treated, all of them are. -/
theorem ackermanizePairs_spec {ps : List (InstancePair Var F)} (h : Stands sig pool m pairs)
    (hps : IsPairs m ps) (hnodup : ps.Nodup)
    (hleft : ∀ p ∈ ps.dropWhile (fun p => p ∉ m.stores.refined), p ∈ m.stores.refined)
    (constrained : Bool) :
    Refines sig pool m (UFCegarModule.ackermanizePairs pool ps constrained m).2 pairs ∧
      ∀ p ∈ ps, p ∈ (UFCegarModule.ackermanizePairs pool ps constrained m).2.stores.refined := by
  induction ps generalizing m constrained with
  | nil => exact ⟨⟨h, rfl, fun _ => id⟩, nofun⟩
  | cons p ps ih =>
    rw [UFCegarModule.ackermanizePairs]
    split_ifs with hp
    · rw [dropWhile_cons_of_neg (by simpa using hp)] at hleft
      exact ⟨⟨h, rfl, fun _ => id⟩, hleft⟩
    · obtain ⟨hpps, hnodup⟩ := nodup_cons.mp hnodup
      rw [dropWhile_cons_of_pos (by simpa using hp)] at hleft
      obtain ⟨href, hrefined⟩ :=
        h.refines_constrain (fun _ s => s) (fun _ _ => rfl) (hps p mem_cons_self)
      -- the other pairs are treated as before
      have hsame : ∀ q ∈ ps, q ∈ p :: m.stores.refined ↔ q ∈ m.stores.refined := by
        intro q hq
        rw [mem_cons]
        exact or_iff_right fun heq => hpps (heq ▸ hq)
      have hdrop : ps.dropWhile (fun q => q ∉ p :: m.stores.refined) =
          ps.dropWhile fun q => q ∉ m.stores.refined :=
        dropWhile_congr fun q hq => decide_eq_decide.mpr (not_congr (hsame q hq))
      have hleft' : ∀ q ∈ ps.dropWhile
          (fun q => q ∉ (m.constrain pool (fun _ s => s) p).stores.refined),
            q ∈ (m.constrain pool (fun _ s => s) p).stores.refined := by
        rw [hrefined, hdrop]
        exact fun q hq => mem_cons_of_mem p (hleft q hq)
      have hps' : IsPairs (m.constrain pool (fun _ s => s) p) ps := fun q hq => by
        rw [href.instances]
        exact hps q (mem_cons_of_mem p hq)
      obtain ⟨href', hall⟩ := ih href.stands hps' hnodup hleft' true
      refine ⟨href.trans href', forall_mem_cons.mpr ⟨?_, hall⟩⟩
      exact href'.refined p (hrefined ▸ mem_cons_self)

theorem refinePairs_spec {ps : List (InstancePair Var F)} (h : Stands sig pool m pairs)
    (hps : IsPairs m ps) (added : Bool) :
    Refines sig pool m (UFCegarModule.refinePairs pool ps added m).2 pairs ∧
      (∀ p ∈ ps, p ∈ (UFCegarModule.refinePairs pool ps added m).2.stores.refined) ∧
        ((∀ p ∈ ps, p ∈ m.stores.refined) →
          UFCegarModule.refinePairs pool ps added m = (added, m)) ∧
        ((UFCegarModule.refinePairs pool ps added m).1 = false →
          added = false ∧ ∀ p ∈ ps, p ∈ m.stores.refined) := by
  induction ps generalizing m added with
  | nil => exact ⟨⟨h, rfl, fun _ => id⟩, nofun, fun _ => rfl, fun h => ⟨h, nofun⟩⟩
  | cons p ps ih =>
    rw [UFCegarModule.refinePairs, UFCegarModule.refinePair]
    by_cases hp : p ∈ m.stores.refined
    · rw [if_pos hp]
      dsimp only
      rw [Bool.or_false]
      obtain ⟨href, hall, hsame, hflag⟩ :=
        ih h (fun q hq => hps q (mem_cons_of_mem p hq)) added
      refine ⟨href, forall_mem_cons.mpr ⟨href.refined p hp, hall⟩,
        fun hmem => hsame fun q hq => hmem q (mem_cons_of_mem p hq), fun hfalse => ?_⟩
      obtain ⟨hadded, hmem⟩ := hflag hfalse
      exact ⟨hadded, forall_mem_cons.mpr ⟨hp, hmem⟩⟩
    · rw [if_neg hp]
      dsimp only
      obtain ⟨href, hrefined⟩ :=
        h.refines_constrain recordInstance (fun _ _ => rfl) (hps p mem_cons_self)
      obtain ⟨href', hall, -, hflag⟩ := ih href.stands (fun q hq => by
          rw [href.instances]
          exact hps q (mem_cons_of_mem p hq)) (added || true)
      refine ⟨href.trans href', forall_mem_cons.mpr ⟨?_, hall⟩, fun hmem => ?_, fun hfalse => ?_⟩
      · exact href'.refined p (hrefined ▸ mem_cons_self)
      · exact absurd (hmem p mem_cons_self) hp
      · have htrue := (hflag hfalse).1
        rw [Bool.or_true] at htrue
        cases htrue

/-! ## Calls of the backends -/

variable (lib : Library Var F)

/-- All pairs have been treated. -/
def AllRefined (lib : Library Var F) (m : UFCegarModule Var F) : Prop :=
  ∀ p ∈ m.stores.pairs lib, p ∈ m.stores.refined

omit [DecidableEq Var] in
theorem isPairs (m : UFCegarModule Var F) : IsPairs m (m.stores.pairs lib) :=
  fun _ hp => mem_pairs lib hp

theorem ackermanize_spec (h : Stands sig pool m pairs)
    (hleft : ∀ p ∈ (m.stores.pairs lib).dropWhile (fun p => p ∉ m.stores.refined),
      p ∈ m.stores.refined) :
    Stands sig pool (m.ackermanize pool lib).2 pairs ∧
      AllRefined lib (m.ackermanize pool lib).2 := by
  obtain ⟨href, hall⟩ := h.ackermanizePairs_spec (isPairs lib m)
    (nodup_pairs lib h.stores.nodup) hleft false
  refine ⟨href.stands, fun p hp => hall p ?_⟩
  exact (pairs_congr lib href.instances) ▸ hp

theorem refine_eq (h : Stands sig pool m pairs) :
    m.refine pool lib = UFCegarModule.refinePairs pool (m.stores.pairs lib) false m := by
  obtain ⟨href, -⟩ := h.refinePairs_spec (isPairs lib m) false
  have hpend := href.stands.stores.pending
  rw [UFCegarModule.refine]
  generalize UFCegarModule.refinePairs pool (m.stores.pairs lib) false m = r at *
  obtain ⟨added, m'⟩ := r
  obtain ⟨⟨formulaStore, termStore, instances, refined, pending, nextVariable⟩, passed⟩ := m'
  obtain rfl : pending = [] := hpend
  rfl

theorem refine_spec (h : Stands sig pool m pairs) :
    Stands sig pool (m.refine pool lib).2 pairs ∧ AllRefined lib (m.refine pool lib).2 ∧
      (AllRefined lib m → m.refine pool lib = (false, m)) ∧
        ((m.refine pool lib).1 = false → AllRefined lib m) := by
  obtain ⟨href, hall, hsame, hflag⟩ := h.refinePairs_spec (isPairs lib m) false
  rw [h.refine_eq lib]
  refine ⟨href.stands, fun p hp => hall p ?_, hsame, fun hfalse => (hflag hfalse).2⟩
  exact (pairs_congr lib href.instances) ▸ hp

end Stands

/-- What an answer says about formulas. -/
def Decides (sig : Signature Var F S) (fs : List (Formula (UEquality Var F))) (answer : Answer) :
    Prop :=
  (answer = .sat → Satisfiable sig fs) ∧ (answer = .unsat → ¬ Satisfiable sig fs)

/-- An answer is the one of a call of the backends, unless it is positive or negative. -/
def FromBackends (bk : Backends sig β) (answer : Answer) : Prop :=
  answer = .sat ∨ answer = .unsat ∨ ∃ fs b, (bk.check fs b).1 = answer

namespace Stands

variable {m : UFCegarModule Var F}
  {pairs : List (Transformation (UEquality Var F) FlatEquality)} (lib : Library Var F)
  (bk : Backends sig β)

omit [DecidableEq Var] [DecidableEq F] in
theorem decides_of_unsat (h : Stands sig pool m pairs) {b : β}
    (hres : (bk.check m.mpPassedFormula.formulas b).1 ≠ .sat) :
    Decides sig (pairs.map (·.1)) (bk.check m.mpPassedFormula.formulas b).1 :=
  ⟨fun hsat => absurd hsat hres,
    fun hunsat hsat => bk.check_unsat _ _ hunsat (h.passedSatisfiable hsat)⟩

omit [DecidableEq Var] in
theorem decides_of_allRefined (h : Stands sig pool m pairs) (hall : AllRefined lib m) (b : β) :
    Decides sig (pairs.map (·.1)) (bk.check m.mpPassedFormula.formulas b).1 :=
  ⟨fun hsat => h.satisfiable (complete_of_pairs lib hall) (bk.check_sat _ _ hsat),
    fun hunsat hsat => bk.check_unsat _ _ hunsat (h.passedSatisfiable hsat)⟩

/-- Without a pair to treat, the loop ends in its first turn. -/
theorem cegarLoop_of_allRefined (h : Stands sig pool m pairs) (hall : AllRefined lib m)
    (received : List (Formula (UEquality Var F))) (n : ℕ) (result : Answer) (b : β) :
    UFCegarModule.cegarLoop pool lib bk received (n + 1) result m b = some (result, m, b) := by
  rw [UFCegarModule.cegarLoop]
  obtain ⟨-, -, href, -⟩ := h.refine_spec lib
  rw [href hall]
  split_ifs <;> rfl

/-- After the first refinement there is no pair to treat. -/
theorem cegarLoop_spec (h : Stands sig pool m pairs) (n : ℕ) (b : β)
    (hdecisive : AllRefined lib m ∨ ∀ b, bk.satisfiedBy (pairs.map (·.1)) b ≠ .undetermined)
    (hn : ¬ AllRefined lib m → 1 ≤ n) :
    ∃ answer m' b', UFCegarModule.cegarLoop pool lib bk (pairs.map (·.1)) (n + 1)
        (bk.check m.mpPassedFormula.formulas b).1 m (bk.check m.mpPassedFormula.formulas b).2 =
          some (answer, m', b') ∧
      Stands sig pool m' pairs ∧ Decides sig (pairs.map (·.1)) answer ∧
        FromBackends bk answer := by
  have hfrom : ∀ fs b, FromBackends bk (bk.check fs b).1 := fun fs b =>
    .inr (.inr ⟨fs, b, rfl⟩)
  by_cases hall : AllRefined lib m
  · exact ⟨_, m, _, h.cegarLoop_of_allRefined lib bk hall _ n _ _, h,
      h.decides_of_allRefined lib bk hall b, hfrom _ _⟩
  · have hdecisive := hdecisive.resolve_left hall
    obtain ⟨n, rfl⟩ := Nat.exists_eq_add_of_le' (hn hall)
    rw [UFCegarModule.cegarLoop]
    by_cases hres : (bk.check m.mpPassedFormula.formulas b).1 = .sat
    · rw [if_neg (not_not.mpr hres)]
      split_ifs with hverdict
      · have hsat : bk.satisfiedBy (pairs.map (·.1))
            (bk.check m.mpPassedFormula.formulas b).2 = .satisfied := by
          generalize hv : bk.satisfiedBy (pairs.map (·.1))
            (bk.check m.mpPassedFormula.formulas b).2 = verdict at hverdict
          cases verdict with
          | violated => exact absurd rfl hverdict
          | satisfied => rfl
          | undetermined => exact absurd hv (hdecisive _)
        refine ⟨_, m, _, rfl, h, ⟨fun _ => bk.satisfied_sound _ _ hsat, fun hunsat => ?_⟩,
          hfrom _ _⟩
        rw [hres] at hunsat
        cases hunsat
      · obtain ⟨hstands, hallRefined, -, hflag⟩ := h.refine_spec lib
        generalize href : m.refine pool lib = r at hstands hallRefined hflag
        obtain ⟨refinable, m'⟩ := r
        cases refinable with
        | true =>
          dsimp only
          rw [if_pos rfl]
          exact ⟨_, m', _, hstands.cegarLoop_of_allRefined lib bk hallRefined _ n _ _, hstands,
            hstands.decides_of_allRefined lib bk hallRefined _, hfrom _ _⟩
        | false => exact absurd (hflag rfl) hall
    · rw [if_pos hres]
      exact ⟨_, m, _, rfl, h, h.decides_of_unsat bk hres, hfrom _ _⟩

/-! ## Checks -/

/-- The pairs that a check has to treat are those it does treat. -/
def Checkable (cegar : Bool) (m : UFCegarModule Var F)
    (received : List (Formula (UEquality Var F))) : Prop :=
  if cegar then AllRefined lib m ∨ ∀ b, bk.satisfiedBy received b ≠ .undetermined
  else ∀ p ∈ (m.stores.pairs lib).dropWhile (fun p => p ∉ m.stores.refined), p ∈ m.stores.refined

theorem checkCore_spec (h : Stands sig pool m pairs) (cegar : Bool) (b : β)
    (hcheckable : Checkable lib bk cegar m (pairs.map (·.1))) :
    ∃ answer m' b', m.checkCore pool lib bk cegar (pairs.map (·.1)) b = some (answer, m', b') ∧
      Stands sig pool m' pairs ∧ Decides sig (pairs.map (·.1)) answer ∧
        FromBackends bk answer := by
  rw [UFCegarModule.checkCore, if_pos h.stores.flattened]
  cases cegar with
  | true =>
    refine h.cegarLoop_spec lib bk _ b hcheckable fun hall => ?_
    obtain ⟨p, hp, href⟩ : ∃ p ∈ m.stores.pairs lib, p ∉ m.stores.refined := by
      simpa [AllRefined] using hall
    exact length_pos_of_mem (mem_filter.mpr ⟨hp, decide_eq_true href⟩)
  | false =>
    obtain ⟨hstands, hall⟩ := h.ackermanize_spec lib hcheckable
    exact ⟨_, _, _, rfl, hstands, hstands.decides_of_allRefined lib bk hall b,
      .inr (.inr ⟨_, _, rfl⟩)⟩

end Stands

/-! ## Runs -/

namespace State

variable {s : State Var F β} (lib : Library Var F) (bk : Backends sig β) (cegar : Bool)

/-- Formulas are removed as long as no constraint has been passed and if no other received formula
is a conjunction with them, and checks have only such pairs to treat as they do treat. -/
def Careful (s : State Var F β) : Action Var F → Prop
  | .add f => f ∉ s.received ∧ ∀ e, f.Mentions e → e.WellFormed sig ∧ Simple e.lhs ∧ Simple e.rhs
  | .remove f => f ∈ s.received ∧ s.module.stores.refined = [] ∧
      ∀ g ∈ s.received, g ≠ f → hasPart g f = false
  | .check => Stands.Checkable lib bk cegar s.module s.received

variable (pool) in
/-- In all runs of actions that meet a condition, checks that meet it end with a right answer, one
that the backends give if it is neither positive nor negative. -/
def Meets (allowed : State Var F β → Action Var F → Prop) [∀ s a, Decidable (allowed s a)] :
    Prop :=
  ∀ b as s, Run.run (Run.guarded allowed (step pool lib bk cegar)) (initial b) as = some s →
    allowed s .check → ∃ answer s', s.check pool lib bk cegar = some (answer, s') ∧
      Decides sig s.received answer ∧ FromBackends bk answer

omit [DecidableEq Var] [DecidableEq F] in
open Classical in
/-- Without formulas every interpretation is a model. -/
theorem satisfiable_nil (sig : Signature Var F S) : Satisfiable sig [] :=
  ⟨⟨fun _ => PUnit, fun _ => ⟨⟩, fun _ _ => ⟨⟩⟩, fun _ => decide _, fun _ => decide_eq_true_iff,
    nofun⟩

/-- What is passed belongs to the received formulas. -/
def Inv (sig : Signature Var F S) (pool : FormulaPool FlatEquality) (s : State Var F β) : Prop :=
  s.received.Nodup ∧ ∃ pairs : List (Transformation (UEquality Var F) FlatEquality),
    pairs.map (·.1) = s.received ∧ Stands sig pool s.module pairs

theorem Inv.check (h : Inv sig pool s)
    (hcheckable : Stands.Checkable lib bk cegar s.module s.received) :
    ∃ answer s', s.check pool lib bk cegar = some (answer, s') ∧ Inv sig pool s' ∧
      Decides sig s.received answer ∧ FromBackends bk answer := by
  obtain ⟨hnodup, pairs, hrec, hstands⟩ := h
  rw [State.check]
  split_ifs with hempty
  · refine ⟨_, s, rfl, ⟨hnodup, pairs, hrec, hstands⟩, ⟨fun _ => ?_, nofun⟩, .inl rfl⟩
    rw [hempty]
    exact satisfiable_nil sig
  · rw [← hrec] at hcheckable ⊢
    obtain ⟨answer, m', b', hchk, hstands', hdec, hfrom⟩ :=
      hstands.checkCore_spec lib bk cegar s.backends hcheckable
    rw [hchk]
    exact ⟨answer, _, rfl, ⟨hrec ▸ hnodup, pairs, rfl, hstands'⟩, hdec, hfrom⟩

theorem Inv.step (h : Inv sig pool s) {a : Action Var F} (ha : Careful lib bk cegar s a)
    {s' : State Var F β} (hstep : step pool lib bk cegar s a = some s') : Inv sig pool s' := by
  cases a with
  | add f =>
    obtain ⟨hnodup, pairs, hrec, hstands⟩ := h
    obtain rfl := some.inj hstep
    obtain ⟨g, hstands'⟩ := hstands.addCore ha.2
    refine ⟨nodup_cons.mpr ⟨ha.1, hnodup⟩, (f, g) :: pairs, ?_, hstands'⟩
    rw [map_cons, hrec]
  | remove f =>
    obtain ⟨hnodup, pairs, hrec, hstands⟩ := h
    obtain rfl := some.inj hstep
    have hpart : ∀ p ∈ pairs, p.1 ≠ f → hasPart p.1 f = false := fun p hp =>
      ha.2.2 p.1 (hrec ▸ List.mem_map_of_mem hp)
    exact ⟨hnodup.erase f, _, map_filter_ne hrec hnodup f, hstands.remove ha.2.1 hpart⟩
  | check =>
    obtain ⟨answer, s₁, hchk, hinv, -⟩ := h.check lib bk cegar ha
    rw [State.step, hchk, map_some, some.injEq] at hstep
    exact hstep ▸ hinv

variable (pool)

open Classical in
/-- Checks are right in all runs of careful actions. -/
theorem decides_careful : Meets pool lib bk cegar (Careful lib bk cegar) := by
  intro b as s hrun hchk
  have hinv : Inv sig pool s := by
    refine Run.guarded_invariant (P := Inv sig pool)
      (fun s a s' hs ha hstep => hs.step lib bk cegar ha hstep) ?_ hrun
    exact ⟨nodup_nil, [], rfl, .initial⟩
  obtain ⟨answer, s', hchk, -, hdec, hfrom⟩ := hinv.check lib bk cegar hchk
  exact ⟨answer, s', hchk, hdec, hfrom⟩

theorem check_eager (hrec : s.received ≠ [])
    (hflattened : s.module.stores.flattenedFunctionCalls = true) :
    s.check pool lib bk false = some
      ((bk.check (s.module.ackermanize pool lib).2.mpPassedFormula.formulas s.backends).1,
        ⟨(s.module.ackermanize pool lib).2, s.received,
          (bk.check (s.module.ackermanize pool lib).2.mpPassedFormula.formulas s.backends).2⟩) := by
  rw [State.check, if_neg hrec, UFCegarModule.checkCore, if_pos hflattened,
    if_neg Bool.false_ne_true]
  rfl

end State

/-! ## An application that occurs after a check -/

section Examples

open State

def signature : Signature ℕ ℕ Unit := ⟨fun _ => (), fun _ => (), fun _ => 1⟩

/-- Maps and sets in the order of insertion. -/
def inserting : Library ℕ ℕ where
  functions := id
  functions_perm _ := .refl _
  sorted := id
  sorted_perm _ := .refl _

open Classical in
/-- Backends that always give an answer; the models they find say nothing about the variables of
the received formulas. -/
noncomputable def deciding : Backends signature Unit where
  check fs b := (if PassedSatisfiable fs then .sat else .unsat, b)
  check_sat fs b h := by
    by_contra hunsat
    rw [if_neg hunsat] at h
    cases h
  check_unsat fs b h hsat := by
    rw [if_pos hsat] at h
    cases h
  satisfiedBy _ _ := .undetermined
  satisfied_sound _ _ h := by cases h

def applied (x : ℕ) : UTerm ℕ ℕ := .inst 0 [.var x]

def different : Formula (UEquality ℕ ℕ) := .atom ⟨applied 0, applied 1, true⟩

/-- A new application to a variable that is equal to an old one. -/
def unequal : Formula (UEquality ℕ ℕ) :=
  .app .and [.atom ⟨.var 2, .var 0, false⟩, .atom ⟨applied 2, applied 0, true⟩]

theorem wellFormed_applied (x : ℕ) : (applied x).WellFormed signature :=
  .inst rfl fun _ ht => mem_singleton.mp ht ▸ .var x

theorem simple_applied (x : ℕ) : Simple (applied x) :=
  fun _ ht => ⟨x, mem_singleton.mp ht⟩

theorem unsatisfiable_unequal {fs : List (Formula (UEquality ℕ ℕ))} (h : unequal ∈ fs) :
    ¬ Satisfiable signature fs := by
  rintro ⟨I, α, hα, hfs⟩
  have hsides : α ⟨.var 2, .var 0, false⟩ = true ∧ α ⟨applied 2, applied 0, true⟩ = true := by
    simpa [unequal] using hfs unequal h
  have hargs : I.eval (.var 2) = I.eval (.var 0) := by
    simpa [Interpretation.Holds] using (hα _).mp hsides.1
  have hresults : I.eval (applied 2) ≠ I.eval (applied 0) := by
    simpa [Interpretation.Holds] using (hα _).mp hsides.2
  apply hresults
  rw [applied, applied, Interpretation.eval_inst, Interpretation.eval_inst, map_singleton,
    map_singleton, hargs]

/-- The module when the second check begins. -/
def afterAddition : UFCegarModule ℕ ℕ :=
  (((UFCegarModule.initial.addCore (.verbatim _) different).ackermanize (.verbatim _)
    inserting).2).addCore (.verbatim _) unequal

def valueOf (n : ℕ) : ℕ := if n = 4 then 2 else n

theorem passedSatisfiable_unequal : PassedSatisfiable
    (afterAddition.ackermanize (.verbatim _) inserting).2.mpPassedFormula.formulas := by
  refine ⟨⟨ℕ, valueOf⟩, fun e => decide (valueOf e.lhs = valueOf e.rhs) != e.negated,
    fun e => ?_, ?_⟩
  · dsimp only [FlatModel.Holds]
    cases e.negated <;> simp
  · decide +kernel

open Classical in
/-- The second check does not compare the new application with the old one. -/
theorem not_decides_permitted :
    ¬ Meets (.verbatim _) inserting deciding false (Permitted signature) := by
  intro hmeets
  have hdifferent : ∀ e, different.Mentions e →
      e.WellFormed signature ∧ Simple e.lhs ∧ Simple e.rhs := by
    intro e he
    obtain rfl := (Formula.mentions_atom _ _).mp he
    exact ⟨⟨wellFormed_applied 0, wellFormed_applied 1, rfl⟩, simple_applied 0, simple_applied 1⟩
  have hunequal : ∀ e, unequal.Mentions e →
      e.WellFormed signature ∧ Simple e.lhs ∧ Simple e.rhs := by
    intro e he
    have hcases : ⟨.var 2, .var 0, false⟩ = e ∨ ⟨applied 2, applied 0, true⟩ = e := by
      simpa [unequal] using he
    rcases hcases with rfl | rfl
    · exact ⟨⟨.var 2, .var 0, rfl⟩, trivial, trivial⟩
    · exact ⟨⟨wellFormed_applied 2, wellFormed_applied 0, rfl⟩, simple_applied 2, simple_applied 0⟩
  have hchk : step (.verbatim _) inserting deciding false
      ⟨UFCegarModule.initial.addCore (.verbatim _) different, [different], ()⟩ .check =
        some ⟨((UFCegarModule.initial.addCore (.verbatim _) different).ackermanize (.verbatim _)
          inserting).2, [different], ()⟩ := by
    rw [State.step, check_eager _ _ _ (cons_ne_nil _ _) (by decide +kernel)]
    rfl
  have hrun : Run.run (Run.guarded (Permitted signature)
      (step (.verbatim _) inserting deciding false)) (State.initial ())
        [.add different, .check, .add unequal] =
          some ⟨afterAddition, [unequal, different], ()⟩ := by
    refine Run.run_cons.mpr ⟨_, Run.guarded_eq_some.mpr ⟨⟨not_mem_nil, hdifferent⟩, rfl⟩, ?_⟩
    refine Run.run_cons.mpr ⟨_, Run.guarded_eq_some.mpr ⟨trivial, hchk⟩, ?_⟩
    exact Run.run_cons.mpr ⟨_, Run.guarded_eq_some.mpr ⟨⟨by decide, hunequal⟩, rfl⟩, rfl⟩
  obtain ⟨answer, s', hres, ⟨hsat, -⟩, -⟩ := hmeets () _ _ hrun trivial
  rw [check_eager _ _ _ (cons_ne_nil _ _) (by decide +kernel), some.injEq, Prod.mk.injEq] at hres
  have hans : answer = .sat := by
    rw [← hres.1]
    exact if_pos passedSatisfiable_unequal
  exact unsatisfiable_unequal mem_cons_self (hsat hans)

end Examples

end Smtrat.UFCegar
