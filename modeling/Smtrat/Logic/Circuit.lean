import Smtrat.Logic.Formula

/-!
# Circuits with fresh atoms and asserted formulas

A circuit allocates fresh atoms from a counter and asserts formulas that define them.  What it
computes is stated with `Realizes`: started in a world `w`, a counter with a valuation of the
atoms below it,

* every extension of the valuation that satisfies the asserted formulas gives the result the
  values `Q` says, and
* under the condition `C` there is such an extension.

Facts about formulas (`Holds`, `Spells`) survive in every later world, so a circuit is verified
by running through it once, with `Realizes.bind` at each step.  A world may be dead: this is what
remains of a valuation that no extension saves, and there the values say nothing.  Dead worlds
keep the bounds on atoms independent of satisfiability.
-/

open PropFormula

/-- Atoms are named from outside or allocated by a circuit. -/
inductive Atom (β : Type) where
  | named (b : β)
  | fresh (n : ℕ)
deriving DecidableEq, Repr

/-- What a circuit leaves behind: a result, the counter, and the formulas it asserted. -/
structure CircuitResult (β : Type) (X : Type) where
  value : X
  next : ℕ
  asserted : List (Formula (Atom β))

/-- A circuit reads the counter of fresh atoms and writes asserted formulas. -/
def Circuit (β : Type) (X : Type) : Type := ℕ → CircuitResult β X

namespace Circuit
open List

variable {β X Y : Type}

instance : Monad (Circuit β) where
  pure x := fun n => ⟨x, n, []⟩
  bind m f := fun n =>
    let r := m n
    let s := f r.value r.next
    ⟨s.value, s.next, r.asserted ++ s.asserted⟩

/-- The next fresh atom. -/
def createVariable : Circuit β (Formula (Atom β)) := fun n => ⟨.atom (.fresh n), n + 1, []⟩

/-- The next `n` fresh atoms. -/
def createVariables (n : ℕ) : Circuit β (List (Formula (Atom β))) := fun k =>
  ⟨(List.range n).map fun i => .atom (.fresh (k + i)), k + n, []⟩

def boolAssert (f : Formula (Atom β)) : Circuit β Unit := fun n => ⟨(), n, [f]⟩

/-- Appends `n` results to a list, each computed from the index and the list so far. -/
def pushWith (f : ℕ → List X → Circuit β X) : ℕ → List X → Circuit β (List X)
  | 0, out => pure out
  | n + 1, out => do
    let out ← pushWith f n out
    let x ← f n out
    pure (out ++ [x])

/-! ## Bounds and agreement -/

/-- The atom is named or was allocated before the counter reached `n`. -/
def AtomBelow (n : ℕ) : Atom β → Prop
  | .named _ => True
  | .fresh k => k < n

/-- All atoms of the formula are below `n`. -/
def Below (n : ℕ) (f : Formula (Atom β)) : Prop := ∀ a, f.Mentions a → AtomBelow n a

/-- Two valuations that differ on atoms from `n` on only. -/
def Agree (n : ℕ) (α γ : Atom β → Bool) : Prop := ∀ a, AtomBelow n a → γ a = α a

/-- The valuation satisfies all formulas of the list. -/
def Models (α : Atom β → Bool) (fs : List (Formula (Atom β))) : Prop :=
  ∀ f ∈ fs, f.eval α = true

variable {m n : ℕ}

theorem AtomBelow.mono (h : m ≤ n) {a : Atom β} (ha : AtomBelow m a) :
    AtomBelow n a := by
  cases a with
  | named b => trivial
  | fresh k => exact lt_of_lt_of_le ha h

theorem Agree.refl (n : ℕ) (α : Atom β → Bool) : Agree n α α := fun _ _ => rfl

variable {α γ : Atom β → Bool}

theorem Agree.trans {δ : Atom β → Bool} (h₁ : Agree m α γ) (h₂ : Agree n γ δ)
    (hmn : m ≤ n) : Agree m α δ := fun a ha => (h₂ a (ha.mono hmn)).trans (h₁ a ha)

variable {f : Formula (Atom β)}

theorem Below.eval_eq (hf : Below n f)
    (h : Agree n α γ) : f.eval γ = f.eval α := Formula.eval_congr fun a ha => h a (hf a ha)

variable {fs : List (Formula (Atom β))}

theorem Models.congr (hfs : ∀ f ∈ fs, Below n f) (h : Agree n α γ) (hα : Models α fs) :
    Models γ fs := by
  intro f hf
  rw [(hfs f hf).eval_eq h]
  exact hα f hf

@[simp] theorem models_nil (α : Atom β → Bool) : Models α [] := by
  rintro f ⟨⟩

@[simp] theorem models_append (α : Atom β → Bool) (fs gs : List (Formula (Atom β))) :
    Models α (fs ++ gs) ↔ Models α fs ∧ Models α gs := forall_mem_append

@[simp] theorem models_singleton (α : Atom β → Bool) (f : Formula (Atom β)) :
    Models α [f] ↔ f.eval α = true := by
  simp [Models]

/-- The valuation that gives the atoms from `n` on the values `x`. -/
def setFresh (n : ℕ) (x : ℕ → Bool) (α : Atom β → Bool) : Atom β → Bool
  | .named b => α (.named b)
  | .fresh k => if k < n then α (.fresh k) else x (k - n)

theorem agree_setFresh (n : ℕ) (x : ℕ → Bool) (α : Atom β → Bool) : Agree n α (setFresh n x α) := by
  intro a ha
  cases a with
  | named b => rfl
  | fresh k => exact if_pos ha

@[simp] theorem setFresh_add (n : ℕ) (x : ℕ → Bool) (α : Atom β → Bool) (i : ℕ) :
    setFresh n x α (.fresh (n + i)) = x i := by
  rw [setFresh, if_neg (Nat.not_lt.mpr (Nat.le_add_right n i)), Nat.add_sub_cancel_left]

/-! ## Worlds -/

/-- The atoms a circuit is given, and the counter it starts from. -/
structure Scope (β : Type) where
  known : Atom β → Prop
  start : ℕ
  known_below : ∀ a, known a → AtomBelow start a

/-- The formula mentions given atoms and atoms allocated before the counter reached `n` only. -/
def Scope.Covers (S : Scope β) (n : ℕ) (f : Formula (Atom β)) : Prop :=
  ∀ a, f.Mentions a → S.known a ∨ ∃ k, a = .fresh k ∧ S.start ≤ k ∧ k < n

variable {S : Scope β}

theorem Scope.Covers.mono (h : m ≤ n) (hf : S.Covers m f) : S.Covers n f := by
  intro a ha
  rcases hf a ha with hk | ⟨k, rfl, hle, hlt⟩
  · exact .inl hk
  · exact .inr ⟨k, rfl, hle, lt_of_lt_of_le hlt h⟩

theorem Scope.Covers.below (h : S.start ≤ n) (hf : S.Covers n f) : Below n f := by
  intro a ha
  rcases hf a ha with hk | ⟨k, rfl, -, hlt⟩
  · exact (S.known_below a hk).mono h
  · exact hlt

theorem Scope.Covers.create (pool : FormulaPool (Atom β)) {c : Connective}
    (h : ∀ f ∈ fs, S.Covers n f) :
    S.Covers n (pool.create c fs) := by
  intro a ha
  obtain ⟨f, hf, ha⟩ := pool.mentions_create ha
  exact h f hf a ha

variable {k : ℕ}

theorem Scope.covers_fresh (hle : S.start ≤ k) (hlt : k < n) : S.Covers n (.atom (.fresh k)) := by
  intro a ha
  obtain rfl := (Formula.mentions_atom _ _).mp ha
  exact .inr ⟨k, rfl, hle, hlt⟩

/-- A counter, a valuation, and whether the formulas asserted so far hold. -/
structure World (β : Type) where
  scope : Scope β
  next : ℕ
  start_le : scope.start ≤ next
  val : Atom β → Bool
  live : Prop

/-- The world `v` is later than `w`: no atom below the counter of `w` has changed. -/
structure Later (w v : World β) : Prop where
  scope_eq : v.scope = w.scope
  next_le : w.next ≤ v.next
  agree : Agree w.next w.val v.val
  live : v.live → w.live

instance : Preorder (World β) where
  le := Later
  le_refl _ := ⟨rfl, le_rfl, Agree.refl _ _, id⟩
  le_trans _ _ _ h₁ h₂ := ⟨h₂.scope_eq.trans h₁.scope_eq, h₁.next_le.trans h₂.next_le,
    h₁.agree.trans h₂.agree h₁.next_le, h₁.live ∘ h₂.live⟩

variable {v : World β}

theorem later_iff {w : World β} : w ≤ v ↔ Later w v := Iff.rfl

/-- The world after the counter has moved on. -/
def World.move (w : World β) {n : ℕ} (h : w.next ≤ n) (val : Atom β → Bool) (live : Prop) :
    World β := ⟨w.scope, n, w.start_le.trans h, val, live⟩

theorem World.le_move {w : World β} (h : w.next ≤ n) {val : Atom β → Bool} {live : Prop}
    (hval : Agree w.next w.val val) (hlive : live → w.live) : w ≤ w.move h val live :=
  later_iff.mpr ⟨rfl, h, hval, hlive⟩

/-- The formula is known in the world and has the value `b` there. -/
def Holds (w : World β) (f : Formula (Atom β)) (b : Bool) : Prop :=
  w.scope.Covers w.next f ∧ (w.live → f.eval w.val = b)

/-- A list of `n` entries, of which entry `i` is as `R i` says. -/
def Listed (R : ℕ → X → World β → Prop) (d : X) (n : ℕ) (out : List X) (w : World β) : Prop :=
  out.length = n ∧ ∀ i < n, R i (out.getD i d) w

/-- The formulas have the first `n` values of `x`. -/
def Spells (w : World β) (fs : List (Formula (Atom β))) (n : ℕ) (x : ℕ → Bool) : Prop :=
  Listed (fun i f w => Holds w f (x i)) (.const false) n fs w

variable {b : Bool}

theorem Holds.mono {w : World β} (h : w ≤ v) (hf : Holds w f b) : Holds v f b := by
  have hlater := later_iff.mp h
  refine ⟨hlater.scope_eq ▸ hf.1.mono hlater.next_le, fun hlive => ?_⟩
  rw [(hf.1.below w.start_le).eval_eq hlater.agree]
  exact hf.2 (hlater.live hlive)

theorem Holds.congr {w : World β} {c : Bool} (hf : Holds w f b)
    (h : w.live → b = c) : Holds w f c := ⟨hf.1, fun hlive => (hf.2 hlive).trans (h hlive)⟩

variable {x : ℕ → Bool}

theorem Spells.mono {w : World β} (h : w ≤ v) (hf : Spells w fs n x) : Spells v fs n x :=
  ⟨hf.1, fun i hi => (hf.2 i hi).mono h⟩

theorem Spells.congr {w : World β} {y : ℕ → Bool}
    (hf : Spells w fs n x) (h : w.live → ∀ i < n, x i = y i) : Spells w fs n y :=
  ⟨hf.1, fun i hi => (hf.2 i hi).congr fun hlive => h hlive i hi⟩

theorem Listed.nil (R : ℕ → X → World β → Prop) (d : X) (w : World β) : Listed R d 0 [] w :=
  ⟨rfl, fun _ hi => absurd hi (Nat.not_lt_zero _)⟩

theorem Listed.concat {R : ℕ → X → World β → Prop} {d : X} {out : List X} {w : World β}
    (hout : Listed R d n out w) {x : X} (hx : R n x w) : Listed R d (n + 1) (out ++ [x]) w := by
  refine ⟨by simp [hout.1], fun i hi => ?_⟩
  rcases Nat.lt_succ_iff_lt_or_eq.mp hi with hi | rfl
  · rw [getD_append _ _ _ _ (hout.1.symm ▸ hi)]
    exact hout.2 i hi
  · rw [getD_append_right _ _ _ _ hout.1.le, hout.1, Nat.sub_self]
    exact hx

theorem Spells.nil (w : World β) (x : ℕ → Bool) : Spells w [] 0 x := Listed.nil _ _ w

theorem Spells.concat {w : World β} (hfs : Spells w fs n x) (hf : Holds w f (x n)) :
    Spells w (fs ++ [f]) (n + 1) x := Listed.concat hfs hf

@[simp] theorem holds_const (w : World β) (b : Bool) : Holds w (.const b) b :=
  ⟨fun a ha => absurd ha (Formula.mentions_const a b), fun _ => Formula.eval_const _ _⟩

/-! ## Realization -/

/-- The circuit `m`, started in the world `w`, gives results as `Q` says, and does not rule out
the valuation of a live world where `C` holds. -/
structure Realizes (m : Circuit β X) (w : World β) (C : Prop) (Q : X → World β → Prop) : Prop where
  next_le : w.next ≤ (m w.next).next
  covers : ∀ f ∈ (m w.next).asserted, w.scope.Covers (m w.next).next f
  sound : ∀ v, w ≤ v → v.next = (m w.next).next → (v.live → Models v.val (m w.next).asserted) →
    Q (m w.next).value v
  complete : w.live → C → ∃ α, Agree w.next w.val α ∧ Models α (m w.next).asserted

variable {w : World β} {C : Prop}

variable {Q : X → World β → Prop}

theorem Realizes.below {m : Circuit β X} (hm : Realizes m w C Q) :
    ∀ f ∈ (m w.next).asserted, Below (m w.next).next f :=
  fun f hf => (hm.covers f hf).below (w.start_le.trans hm.next_le)

theorem Realizes.pure {x : X} (h : ∀ v, w ≤ v → Q x v) : Realizes (pure x : Circuit β X) w C Q where
  next_le := le_rfl
  covers := by rintro f ⟨⟩
  sound v hv _ _ := h v hv
  complete _ _ := ⟨w.val, Agree.refl _ _, models_nil _⟩

theorem Realizes.bind {m : Circuit β X} {f : X → Circuit β Y} {P : X → World β → Prop}
    {Q : Y → World β → Prop} (hm : Realizes m w C P)
    (hf : ∀ x v, w ≤ v → P x v → Realizes (f x) v C Q) : Realizes (m >>= f) w C Q := by
  -- the dead world behind `m` shows that the bounds hold whatever the asserted formulas say
  have hle : w ≤ w.move hm.next_le w.val False :=
    World.le_move hm.next_le (Agree.refl _ _) False.elim
  have hdead := hf _ _ hle (hm.sound _ hle rfl False.elim)
  refine ⟨hm.next_le.trans hdead.next_le, fun g hg => ?_, fun v hv hnext hmod => ?_,
    fun hlive hC => ?_⟩
  · rcases mem_append.mp hg with hg | hg
    · exact (hm.covers g hg).mono hdead.next_le
    · exact hdead.covers g hg
  · have hlater := later_iff.mp hv
    have hmid : w ≤ w.move hm.next_le v.val v.live :=
      World.le_move hm.next_le hlater.agree hlater.live
    have hP := hm.sound _ hmid rfl fun hlive => ((models_append _ _ _).mp (hmod hlive)).1
    refine (hf _ _ hmid hP).sound v (later_iff.mpr ⟨hlater.scope_eq, ?_, Agree.refl _ _, id⟩) hnext
      fun hlive => ?_
    · exact hnext ▸ hdead.next_le
    · exact ((models_append _ _ _).mp (hmod hlive)).2
  · obtain ⟨α, hα, hmα⟩ := hm.complete hlive hC
    have hmid : w ≤ w.move hm.next_le α True :=
      World.le_move hm.next_le hα fun _ => hlive
    have hP := hm.sound _ hmid rfl fun _ => hmα
    obtain ⟨γ, hγ, hmγ⟩ := (hf _ _ hmid hP).complete trivial hC
    exact ⟨γ, hα.trans hγ hm.next_le, (models_append _ _ _).mpr ⟨hmα.congr hm.below hγ, hmγ⟩⟩

theorem Realizes.mono {m : Circuit β X} {P : X → World β → Prop} (hm : Realizes m w C P)
    (h : ∀ x v, w ≤ v → P x v → Q x v) : Realizes m w C Q :=
  ⟨hm.next_le, hm.covers, fun v hv hnext hmod => h _ v hv (hm.sound v hv hnext hmod), hm.complete⟩

theorem Realizes.boolAssert (hf : Holds w f b) (h : w.live → C → b = true) :
    Realizes (boolAssert f) w C fun _ v => v.live → b = true where
  next_le := le_rfl
  covers := by
    rintro g hg
    obtain rfl := mem_singleton.mp hg
    exact hf.1
  sound v hv _ hmod hlive := by
    rw [← (hf.mono hv).2 hlive]
    exact (models_singleton _ _).mp (hmod hlive)
  complete hlive hC := by
    refine ⟨w.val, Agree.refl _ _, (models_singleton _ _).mpr ?_⟩
    rw [hf.2 hlive]
    exact h hlive hC

/-- Fresh atoms take any value: the rest of the circuit is realized for all of them, and the
condition under which it is satisfiable is met by some. -/
theorem Realizes.createVariables_bind {f : List (Formula (Atom β)) → Circuit β Y}
    {Q : Y → World β → Prop} (D : (ℕ → Bool) → Prop)
    (hf : ∀ fs x v, w ≤ v → Spells v fs n x → Realizes (f fs) v (D x) Q)
    (hD : w.live → C → ∃ x, D x) : Realizes (createVariables n >>= f) w C Q := by
  let fs : List (Formula (Atom β)) := (List.range n).map fun i => .atom (.fresh (w.next + i))
  have hnext : w.next ≤ w.next + n := Nat.le_add_right _ _
  -- in each world behind the allocation the fresh atoms spell their own values
  have hspell : ∀ v : World β, w ≤ v → v.next = w.next + n →
      Spells v fs n fun i => v.val (.fresh (w.next + i)) := by
    intro v hwv hv
    refine ⟨by simp [fs], fun i hi => ?_⟩
    have hget : fs.getD i (.const false) = .atom (.fresh (w.next + i)) := by
      simp [fs, getD_eq_getElem?_getD, getElem?_range hi]
    beta_reduce
    rw [hget]
    refine ⟨(later_iff.mp hwv).scope_eq ▸ Scope.covers_fresh ?_ ?_, fun _ => Formula.eval_atom _ _⟩
    · exact w.start_le.trans (Nat.le_add_right _ _)
    · exact hv ▸ Nat.add_lt_add_left hi _
  have hrun : ∀ v : World β, w ≤ v → v.next = w.next + n →
      Realizes (f fs) v (D fun i => v.val (.fresh (w.next + i))) Q :=
    fun v hv hn => hf fs _ v hv (hspell v hv hn)
  have hdead := hrun (w.move hnext w.val False) (World.le_move hnext (Agree.refl _ _) False.elim) rfl
  refine ⟨hnext.trans hdead.next_le, fun g hg => hdead.covers g hg, fun v hv hvn hmod => ?_,
    fun hlive hC => ?_⟩
  · have hlater := later_iff.mp hv
    exact (hrun (w.move hnext v.val v.live)
      (World.le_move hnext hlater.agree hlater.live) rfl).sound v
      (later_iff.mpr ⟨hlater.scope_eq, hvn ▸ hdead.next_le, Agree.refl _ _, id⟩) hvn hmod
  · obtain ⟨x, hx⟩ := hD hlive hC
    have hα := agree_setFresh w.next x w.val
    have hw : w ≤ w.move hnext (setFresh w.next x w.val) True :=
      World.le_move hnext hα fun _ => hlive
    have hx' : D fun i => setFresh w.next x w.val (.fresh (w.next + i)) := by simpa using hx
    obtain ⟨γ, hγ, hmγ⟩ := (hrun _ hw rfl).complete trivial hx'
    exact ⟨γ, hα.trans hγ hnext, hmγ⟩

/-- A formula is given a name by asserting that a fresh atom is equivalent to it. -/
def define (pool : FormulaPool (Atom β)) (f : Formula (Atom β)) :
    Circuit β (Formula (Atom β)) := do
  let freshBit ← createVariable
  boolAssert (pool.create .iff [freshBit, f])
  pure freshBit

theorem Realizes.define (pool : FormulaPool (Atom β))
    (hf : Holds w f b) : Realizes (define pool f) w C fun g v => Holds v g b where
  next_le := Nat.le_succ _
  covers := by
    intro g hg
    obtain rfl := mem_singleton.mp hg
    refine Scope.Covers.create pool fun h hh => ?_
    rcases mem_cons.mp hh with rfl | hh
    · exact Scope.covers_fresh w.start_le (Nat.lt_succ_self _)
    · obtain rfl := mem_singleton.mp hh
      exact hf.1.mono (Nat.le_succ _)
  sound v hv hnext hmod := by
    refine ⟨?_, fun hlive => ?_⟩
    · rw [(later_iff.mp hv).scope_eq, hnext]
      exact Scope.covers_fresh w.start_le (Nat.lt_succ_self _)
    · have hiff := (models_singleton _ _).mp (hmod hlive)
      rw [← (hf.mono hv).2 hlive]
      rw [FormulaPool.eval_create, map_cons, map_cons, map_nil, Connective.eval_iff] at hiff
      exact eq_of_beq hiff
  complete hlive _ := by
    have hagree := agree_setFresh w.next (fun _ => b) w.val
    refine ⟨_, hagree, (models_singleton _ _).mpr ?_⟩
    have hfresh : setFresh w.next (fun _ => b) w.val (.fresh w.next) = b :=
      setFresh_add w.next (fun _ => b) w.val 0
    have hval : Formula.eval (setFresh w.next (fun _ => b) w.val) f = b :=
      ((hf.1.below w.start_le).eval_eq hagree).trans (hf.2 hlive)
    simp [createVariable, hfresh, hval]

/-- What holds of each entry a loop pushes, given the entries before it, holds of them all. -/
theorem Realizes.pushWith_listed {R : ℕ → X → World β → Prop} {d : X}
    (hR : ∀ i x v u, v ≤ u → R i x v → R i x u) {f : ℕ → List X → Circuit β X} {out : List X}
    (hout : Listed R d k out w) (n : ℕ) (hf : ∀ i < n, ∀ out v, w ≤ v → Listed R d (k + i) out v →
      Realizes (f i out) v C (R (k + i))) :
    Realizes (pushWith f n out) w C (Listed R d (k + n)) := by
  have hmono : ∀ m out v u, v ≤ u → Listed R d m out v → Listed R d m out u :=
    fun m out v u hvu h => ⟨h.1, fun i hi => hR i _ v u hvu (h.2 i hi)⟩
  induction n with
  | zero => exact .pure fun v hv => hmono _ _ w v hv hout
  | succ n ih =>
    refine (ih fun i hi => hf i (Nat.lt_succ_of_lt hi)).bind fun out v hv hout => ?_
    refine (hf n (Nat.lt_succ_self n) out v hv hout).bind fun x u hu hx => ?_
    exact .pure fun t ht =>
      ((hmono _ _ v u hu hout).concat hx : Listed R d (k + n + 1) _ u) |> hmono _ _ u t ht

/-- A loop that pushes the value `x i` in round `i` spells `x`. -/
theorem Realizes.pushWith {f : ℕ → List (Formula (Atom β)) → Circuit β (Formula (Atom β))}
    {out : List (Formula (Atom β))} (hout : Spells w out k x) (n : ℕ)
    (hf : ∀ i < n, ∀ out v, w ≤ v → Spells v out (k + i) x →
      Realizes (f i out) v C fun b u => Holds u b (x (k + i))) :
    Realizes (pushWith f n out) w C fun out v => Spells v out (k + n) x :=
  Realizes.pushWith_listed (fun _ _ _ _ hvu h => h.mono hvu) hout n hf

end Circuit
