import Smtrat.CAD.Projection.FullInsert

/-!
# Runs of the incremental projection

What is reachable is on its level unless a projection candidate still waits.
-/

namespace Smtrat.CAD

universe u

open Saturation List Function Option

/-- What the levels hold is reachable, and closed under the projection steps that do not wait. -/
structure ExactAside {P : Type u} (π : Projector P) (constraints : List (ℕ × P))
    (polynomialById : ℕ → ℕ → Option P) (waiting : QueueEntry → Prop) : Prop where
  sound : ∀ level id p, polynomialById level id = some p →
    Reach π (polynomialsOf constraints) level p
  base : ∀ cid p, (cid, p) ∈ constraints → waiting ⟨0, cid, cid⟩ ∨
    Placed π 1 p fun k => {q | ∃ id, polynomialById k id = some q}
  single : ∀ level id p, level < π.dim → polynomialById level id = some p →
    waiting ⟨level, id, id⟩ ∨ ∀ r ∈ π.single (level + 1) p,
      Placed π (level + 1) r fun k => {q | ∃ id, polynomialById k id = some q}
  paired : ∀ level id id' p q, level < π.dim → id ≠ id' → polynomialById level id = some p →
    polynomialById level id' = some q → waiting ⟨level, id, id'⟩ ∨ waiting ⟨level, id', id⟩ ∨
      ∀ r ∈ π.paired (level + 1) p q,
        Placed π (level + 1) r fun k => {q | ∃ id, polynomialById k id = some q}

section Aside

variable {P : Type u} {π : Projector P} {constraints : List (ℕ × P)}
  {polynomialById : ℕ → ℕ → Option P} {waiting waiting' : QueueEntry → Prop}

/-- If nothing waits then everything reachable is on its level. -/
theorem ExactAside.exact (h : ExactAside π constraints polynomialById waiting)
    (hdone : ∀ qe, ¬ waiting qe) : Exact π constraints polynomialById := by
  intro level p
  constructor
  · rintro ⟨id, hid⟩
    exact h.sound level id p hid
  · intro hreach
    refine hreach.mem (T := fun k => {q | ∃ id, polynomialById k id = some q}) ⟨?_, ?_⟩ ?_
    · rintro k - hk q ⟨id, hid⟩
      exact (h.single k id q hk hid).resolve_left (hdone _)
    · rintro k - hk q ⟨id, hid⟩ q' ⟨id', hid'⟩ hne
      have hids : id ≠ id' := by
        rintro rfl
        exact hne (some_inj.mp (hid.symm.trans hid'))
      exact ((h.paired k id id' q q' hk hids hid hid').resolve_left (hdone _)).resolve_left (hdone _)
    · rintro c ⟨cid, hcid⟩
      exact (h.base cid c hcid).resolve_left (hdone _)

theorem ExactAside.empty (h : ExactAside π [] polynomialById waiting) (level id : ℕ) :
    polynomialById level id = none := by
  cases hp : polynomialById level id with
  | none => rfl
  | some p =>
    have hreach := h.sound level id p hp
    rw [polynomialsOf_nil] at hreach
    exact absurd hreach not_reach_empty

end Aside

namespace ProjectionF

variable {P : Type u}

/-- A candidate of a constraint names one that is present, and the others have their polynomials. -/
def ValidEntry (dim : ℕ) (s : ProjectionF P) (qe : QueueEntry) : Prop :=
  (qe.level = 0 ∧ qe.first = qe.second ∧ (s.received qe.first).isSome) ∨ Valid dim s qe

/-- The invariant; the queue is given by what waits in it. -/
structure InvAside (op : ProjectionOperator P) (dim : ℕ) (constraints : List (ℕ × P))
    (waiting : QueueEntry → Prop) (s : ProjectionF P) : Prop where
  wellFormed : s.WellFormed
  received : ∀ cid p, s.received cid = some p ↔ (cid, p) ∈ constraints
  valid : ∀ qe ∈ s.projectionQueue, ValidEntry dim s qe
  aside : ExactAside (op.forwarding dim) constraints s.polynomialById waiting

def Inv (op : ProjectionOperator P) (dim : ℕ) (t : Tracked (ProjectionF P) P) : Prop :=
  InvAside op dim t.constraints (· ∈ t.projection.projectionQueue) t.projection

section Invariant

variable {op : ProjectionOperator P} {dim : ℕ} {constraints : List (ℕ × P)} {s : ProjectionF P}
  {waiting waiting' : QueueEntry → Prop}

theorem inv_init : Inv op dim ⟨[], init⟩ where
  wellFormed := ProjectionNU.wellFormed_init
  received _ _ := iff_of_false (fun h => nomatch h) not_mem_nil
  valid _ h := absurd h not_mem_nil
  aside :=
    { sound := fun _ _ _ h => nomatch h
      base := fun _ _ h => absurd h not_mem_nil
      single := fun _ _ _ _ h => nomatch h
      paired := fun _ _ _ _ _ _ _ h => nomatch h }

theorem levels_eq (hs : s.WellFormed) :
    (fun k => {q | ∃ id, s.polynomialById k id = some q}) = s.levels := by
  funext k
  ext q
  exact hs.exists_polynomialById

/-- Insertions keep the invariant, and what they insert is on its level afterwards. -/
theorem InvAside.inserted {l : ℕ} {Q : Set P} {r : Finset ℕ × ProjectionF P}
    (h : InvAside op dim constraints waiting s) (waiting' : QueueEntry → Prop)
    (hr : Inserted (op.forwarding dim) l Q s r)
    (hQ : ∀ q ∈ Q, Placed (op.forwarding dim) l q
      fun k => {q | Reach (op.forwarding dim) (polynomialsOf constraints) k q})
    (hwait : ∀ qe, waiting qe → waiting' qe) (hqueue : ∀ qe ∈ r.2.projectionQueue, waiting' qe) :
    InvAside op dim constraints waiting' r.2 := by
  have hwf := hr.grown.wellFormed h.wellFormed
  have hsub := levels_subset h.wellFormed hwf hr.grown
  have hmono {k : ℕ} {q : P}
      (hpl : Placed (op.forwarding dim) k q fun k => {q | ∃ id, s.polynomialById k id = some q}) :
      Placed (op.forwarding dim) k q fun k => {q | ∃ id, r.2.polynomialById k id = some q} := by
    rw [levels_eq h.wellFormed] at hpl
    rw [levels_eq hwf]
    exact hpl.mono hsub
  -- a polynomial that is not new was there under the same id
  have hold {level id : ℕ} {p : P} (hp : r.2.polynomialById level id = some p)
      (hsome : (s.polynomialById level id).isSome) : s.polynomialById level id = some p := by
    obtain ⟨q, hq⟩ := isSome_iff_exists.mp hsome
    rw [hq, ← hp, ← hr.grown.kept level id q hq]
  refine ⟨hwf, ?_, ?_, ⟨?_, ?_, ?_, ?_⟩⟩
  · rw [hr.grown.received]
    exact h.received
  · intro qe hqe
    rcases hr.grown.valid qe hqe with hqe | hvalid
    · rcases h.valid qe hqe with ⟨hlev, hsame, hsome⟩ | hvalid
      · exact .inl ⟨hlev, hsame, by rwa [hr.grown.received]⟩
      · exact .inr (hvalid.kept hr.grown.kept)
    · exact .inr hvalid
  · intro level id p hp
    refine hr.least _ (fun k q hq => ?_) hQ level (hwf.exists_polynomialById.mp ⟨id, hp⟩)
    obtain ⟨id, hid⟩ := h.wellFormed.exists_polynomialById.mpr hq
    exact h.aside.sound k id q hid
  · intro cid p hp
    exact (h.aside.base cid p hp).imp (hwait _) hmono
  · intro level id p hlev hp
    rcases hr.grown.fresh level id hlev (by rw [hp]; rfl) with hsome | ⟨hself, -⟩
    · exact (h.aside.single level id p hlev (hold hp hsome)).imp (hwait _)
        fun hpl q hq => hmono (hpl q hq)
    · exact .inl (hqueue _ hself)
  · intro level id id' p q hlev hne hp hq
    rcases hr.grown.fresh level id hlev (by rw [hp]; rfl) with hsome | ⟨-, hothers⟩
    · rcases hr.grown.fresh level id' hlev (by rw [hq]; rfl) with hsome' | ⟨-, hothers'⟩
      · exact (h.aside.paired level id id' p q hlev hne (hold hp hsome) (hold hq hsome')).imp
          (hwait _) (Or.imp (hwait _) fun hpl r hr => hmono (hpl r hr))
      · rcases hothers' id (by rw [hp]; rfl) with hwaits | hwaits
        · exact .inl (hqueue _ hwaits)
        · exact .inr (.inl (hqueue _ hwaits))
    · rcases hothers id' (by rw [hq]; rfl) with hwaits | hwaits
      · exact .inr (.inl (hqueue _ hwaits))
      · exact .inl (hqueue _ hwaits)

/-- What a candidate stands for. -/
def Projected (π : Projector P) (s : ProjectionF P) (qe : QueueEntry) : Prop :=
  (qe.level = 0 → ∀ p, s.received qe.first = some p → Placed π 1 p s.levels) ∧
  (qe.first = qe.second → ∀ p, s.polynomialById qe.level qe.first = some p →
    ∀ r ∈ π.single (qe.level + 1) p, Placed π (qe.level + 1) r s.levels) ∧
  (qe.first ≠ qe.second → ∀ p q, s.polynomialById qe.level qe.first = some p →
    s.polynomialById qe.level qe.second = some q →
    ∀ r ∈ π.paired (qe.level + 1) p q, Placed π (qe.level + 1) r s.levels)

/-- A candidate that was projected need not wait. -/
theorem InvAside.discharge (h : InvAside op dim constraints waiting s) (qe : QueueEntry)
    (hqe : Projected (op.forwarding dim) s qe) :
    InvAside op dim constraints (fun e => waiting e ∧ e ≠ qe) s := by
  obtain ⟨hbase, hsingle, hpaired⟩ := hqe
  rw [← levels_eq h.wellFormed] at hbase hsingle hpaired
  refine ⟨h.wellFormed, h.received, h.valid, ⟨h.aside.sound, ?_, ?_, ?_⟩⟩
  · intro cid p hp
    by_cases heq : ⟨0, cid, cid⟩ = qe
    · subst heq
      exact .inr (hbase rfl p ((h.received cid p).mpr hp))
    · exact (h.aside.base cid p hp).imp_left fun hwaits => ⟨hwaits, heq⟩
  · intro level id p hlev hp
    by_cases heq : ⟨level, id, id⟩ = qe
    · subst heq
      exact .inr (hsingle rfl p hp)
    · exact (h.aside.single level id p hlev hp).imp_left fun hwaits => ⟨hwaits, heq⟩
  · intro level id id' p q hlev hne hp hq
    by_cases heq : ⟨level, id, id'⟩ = qe
    · subst heq
      exact .inr (.inr (hpaired hne p q hp hq))
    · by_cases heq' : ⟨level, id', id⟩ = qe
      · subst heq'
        exact .inr (.inr fun r hr =>
          hpaired hne.symm q p hq hp r ((op.forwarding dim).paired_comm _ _ _ _ hr))
      · exact (h.aside.paired level id id' p q hlev hne hp hq).imp (fun hwaits => ⟨hwaits, heq⟩)
          (Or.imp_left fun hwaits => ⟨hwaits, heq'⟩)

theorem InvAside.mono (h : InvAside op dim constraints waiting s) (waiting' : QueueEntry → Prop)
    (hwait : ∀ qe, waiting qe → waiting' qe) : InvAside op dim constraints waiting' s where
  wellFormed := h.wellFormed
  received := h.received
  valid := h.valid
  aside :=
    { sound := h.aside.sound
      base := fun cid p hp => (h.aside.base cid p hp).imp_left (hwait _)
      single := fun level id p hlev hp => (h.aside.single level id p hlev hp).imp_left (hwait _)
      paired := fun level id id' p q hlev hne hp hq =>
        (h.aside.paired level id id' p q hlev hne hp hq).imp (hwait _) (Or.imp_left (hwait _)) }

/-- Level zero has no projected polynomials. -/
theorem InvAside.one_le (h : InvAside op dim constraints waiting s) {level id : ℕ} {p : P}
    (hp : s.polynomialById level id = some p) : 1 ≤ level :=
  (h.aside.sound level id p hp).one_le

/-- A new id does not matter to what is on the levels. -/
theorem InvAside.of_queue (h : InvAside op dim constraints waiting s) (queue : List QueueEntry)
    (hqueue : ∀ qe ∈ queue, ValidEntry dim s qe) :
    InvAside op dim constraints waiting { s with projectionQueue := queue } where
  wellFormed := h.wellFormed
  received := h.received
  valid := hqueue
  aside := h.aside

/-! ## Receiving and removing constraints -/

/-- A constraint arrives. -/
theorem InvAside.receive {cid : ℕ} (h : InvAside op dim constraints waiting s) (p : P)
    (hcid : cid ∉ constraints.map (·.1)) :
    InvAside op dim ((cid, p) :: constraints) (fun e => waiting e ∨ e = ⟨0, cid, cid⟩)
      { s with received := update s.received cid (some p) } where
  wellFormed := h.wellFormed
  received c q := by
    show update s.received cid (some p) c = some q ↔ _
    rw [mem_cons]
    by_cases hc : c = cid
    · subst hc
      rw [update_self]
      refine ⟨fun hp => .inl (by rw [some_inj.mp hp]), ?_⟩
      rintro (hp | hq)
      · rw [(Prod.mk.inj hp).2]
      · exact absurd (List.mem_map_of_mem hq) hcid
    · rw [update_of_ne hc, h.received]
      exact ⟨.inr, fun hq => hq.resolve_left fun heq => hc (Prod.mk.inj heq).1⟩
  valid qe hqe := by
    rcases h.valid qe hqe with ⟨hlev, hsame, hsome⟩ | hvalid
    · refine .inl ⟨hlev, hsame, ?_⟩
      show (update s.received cid (some p) qe.first).isSome
      rw [update_apply]
      split_ifs
      · rfl
      · exact hsome
    · exact .inr hvalid
  aside :=
    { sound := fun level id q hq => by
        rw [polynomialsOf_cons]
        exact (h.aside.sound level id q hq).mono (Set.subset_insert p _)
      base := fun c q hq => by
        rcases mem_cons.mp hq with heq | hq
        · obtain ⟨rfl, rfl⟩ := Prod.mk.inj heq
          exact .inl (.inr rfl)
        · exact (h.aside.base c q hq).imp_left .inl
      single := (h.mono (fun e => waiting e ∨ e = ⟨0, cid, cid⟩) fun _ => .inl).aside.single
      paired := (h.mono (fun e => waiting e ∨ e = ⟨0, cid, cid⟩) fun _ => .inl).aside.paired }

/-- A removal only takes the constraint away. -/
theorem removePolynomial_eq (hs : s.WellFormed) (cid : ℕ) :
    (s.removePolynomial dim cid).2 = removeFromProjectionQueue 0 cid
      { s with received := update s.received cid none } := by
  obtain ⟨hsame, hcalls⟩ := hs.removeLevels_eq dim 1 {cid}
  have hsame : (s.toProjectionNU.removePolynomial dim cid).2 = s.toProjectionNU := hsame
  have hcalls : ∀ call ∈ (s.toProjectionNU.removePolynomial dim cid).1, call.2 = ∅ := hcalls
  rw [removePolynomial]
  dsimp only [removeFromProjectionQueue]
  rw [hsame]
  congr 1
  refine filter_eq_self.mpr fun qe _ => decide_eq_true ?_
  rintro ⟨call, hcall, -, -, hid⟩
  rw [hcalls call hcall] at hid
  exact hid.elim (Finset.notMem_empty _) (Finset.notMem_empty _)

theorem removePolynomial_removed (hs : s.WellFormed) (cid : ℕ) :
    Removed s.polynomialById (s.removePolynomial dim cid).2.polynomialById
      (s.removePolynomial dim cid).1 :=
  hs.removePolynomial_removed dim cid

theorem InvAside.removePolynomial {cid : ℕ}
    (h : InvAside op dim constraints (· ∈ s.projectionQueue) s)
    (hkeeps : ∀ level, ∀ q ∈ s.levels level, Reach (op.forwarding dim)
      (polynomialsOf (constraints.filter (·.1 ≠ cid))) level q) :
    InvAside op dim (constraints.filter (·.1 ≠ cid))
      (· ∈ (s.removePolynomial dim cid).2.projectionQueue) (s.removePolynomial dim cid).2 := by
  rw [removePolynomial_eq h.wellFormed]
  have hqueue {e : QueueEntry} (he : e ∈ s.projectionQueue)
      (hother : e.level = 0 → e.first ≠ cid ∧ e.second ≠ cid) :
      e ∈ s.projectionQueue.filter fun qe =>
        ¬ (qe.level = 0 ∧ (qe.first = cid ∨ qe.second = cid)) := by
    refine mem_filter.mpr ⟨he, decide_eq_true ?_⟩
    rintro ⟨hlev, hid⟩
    obtain ⟨hfst, hsnd⟩ := hother hlev
    exact hid.elim hfst hsnd
  have hfilt (c : ℕ) (q : P) :
      (c, q) ∈ constraints.filter (·.1 ≠ cid) ↔ (c, q) ∈ constraints ∧ c ≠ cid := by
    rw [mem_filter, decide_eq_true_iff]
  refine ⟨h.wellFormed, ?_, ?_, ⟨?_, ?_, ?_, ?_⟩⟩
  · intro c q
    rw [hfilt]
    show update s.received cid none c = some q ↔ _
    by_cases hc : c = cid
    · subst hc
      rw [update_self]
      exact iff_of_false (fun h => nomatch h) fun h => h.2 rfl
    · rw [update_of_ne hc, h.received]
      exact (and_iff_left hc).symm
  · intro qe hqe
    obtain ⟨hqe, hnot⟩ := mem_filter.mp hqe
    rcases h.valid qe hqe with ⟨hlev, hsame, hsome⟩ | hvalid
    · refine .inl ⟨hlev, hsame, ?_⟩
      show (update s.received cid none qe.first).isSome
      rwa [update_of_ne fun hc => of_decide_eq_true hnot ⟨hlev, .inl hc⟩]
    · exact .inr hvalid
  · intro level id q hq
    exact hkeeps level q (h.wellFormed.exists_polynomialById.mp ⟨id, hq⟩)
  · intro c q hq
    obtain ⟨hq, hc⟩ := (hfilt c q).mp hq
    exact (h.aside.base c q hq).imp_left fun hwaits => hqueue hwaits fun _ => ⟨hc, hc⟩
  · intro level id q hlev hq
    have hone : 1 ≤ level := h.one_le hq
    exact (h.aside.single level id q hlev hq).imp_left fun hwaits =>
      hqueue hwaits fun hzero => absurd (hzero ▸ hone : 1 ≤ 0) (Nat.not_succ_le_zero 0)
  · intro level id id' q q' hlev hne hq hq'
    have hone : 1 ≤ level := h.one_le hq
    exact (h.aside.paired level id id' q q' hlev hne hq hq').imp
      (fun hwaits => hqueue hwaits fun hzero => absurd (hzero ▸ hone : 1 ≤ 0) (Nat.not_succ_le_zero 0))
      (Or.imp_left fun hwaits => hqueue hwaits fun hzero => absurd (hzero ▸ hone : 1 ≤ 0) (Nat.not_succ_le_zero 0))

/-! ## Projecting -/

variable (pool : IDPool) (less : Comparator P)

theorem top_mem (s : ProjectionF P) (qe : QueueEntry) (rest : List QueueEntry) :
    s.top less qe rest ∈ qe :: rest := by
  refine List.foldlRecOn (motive := fun best => best ∈ qe :: rest) _ _ mem_cons_self ?_
  intro best hbest e he
  split_ifs
  · exact mem_cons_of_mem qe he
  · exact hbest

variable [LinearOrder P]

/-- A valid candidate can be projected, and need not wait any longer. -/
theorem InvAside.projectCandidate (hdim : 0 < dim) (h : InvAside op dim constraints waiting s)
    {qe : QueueEntry} (hvalid : ValidEntry dim s qe) :
    ∃ r, projectCandidate op pool dim qe s = some r ∧
      InvAside op dim constraints (fun e => (waiting e ∨ e ∈ r.2.projectionQueue) ∧ e ≠ qe) r.2 ∧
      (∀ e ∈ s.projectionQueue, e ∈ r.2.projectionQueue) ∧
      (r.1 = ∅ → r.2.projectionQueue = s.projectionQueue) := by
  obtain ⟨level, first, second⟩ := qe
  rcases hvalid with ⟨hlev, hsame, hsome⟩ | ⟨hone, hlt, hfst, hsnd⟩
  · -- the polynomial of a constraint
    obtain rfl : level = 0 := hlev
    obtain rfl : first = second := hsame
    obtain ⟨p, hp⟩ := isSome_iff_exists.mp hsome
    have hp : s.received first = some p := hp
    have hr := insertPolynomialTo_inserted op pool (p := p) (show dim - 1 + 1 = dim by omega)
      le_rfl h.wellFormed ((BaseType.level_ofId 0 first).trans_lt Nat.one_pos)
    refine ⟨({1}, (insertPolynomialTo op pool (dim - 1) 1 p (BaseType.ofId 0 first) s).2), ?_, ?_,
      hr.grown.queue, fun hempty => absurd hempty (Finset.singleton_ne_empty 1)⟩
    · rw [ProjectionF.projectCandidate, hp]
      rfl
    · have hinv := h.inserted (fun e => waiting e ∨ e ∈ (insertPolynomialTo op pool
        (dim - 1) 1 p (BaseType.ofId 0 first) s).2.projectionQueue) hr (fun q hq => by
          rw [Set.mem_singleton_iff.mp hq]
          exact placed_reach ⟨first, (h.received first p).mp hp⟩) (fun _ => .inl) (fun _ => .inr)
      refine hinv.discharge _ ⟨fun _ q hq => ?_, fun _ q hq => ?_, fun hne => absurd rfl hne⟩
      · rw [hr.grown.received, hp] at hq
        obtain rfl := some_inj.mp hq
        exact hr.placed _ rfl
      · exact absurd (hinv.one_le hq) (Nat.not_succ_le_zero 0)
  · cases level with
    | zero => exact absurd hone (Nat.not_succ_le_zero 0)
    | succ level =>
      have hlt : level + 1 < dim := hlt
      have hins (origin : BaseType) (horig : origin.level = level + 1) (nps : List P) :=
        forEach_inserted (π := op.forwarding dim)
          (f := fun np => insertPolynomialTo op pool (dim - (level + 2)) (level + 2) np origin)
          (fun q s hs => insertPolynomialTo_inserted op pool
            (show dim - (level + 2) + (level + 2) = dim by omega) (by omega) hs (by omega)) nps
          h.wellFormed
      obtain ⟨p, hp⟩ := isSome_iff_exists.mp hfst
      obtain ⟨q, hq⟩ := isSome_iff_exists.mp hsnd
      have hp : s.polynomialById (level + 1) first = some p := hp
      have hq : s.polynomialById (level + 1) second = some q := hq
      by_cases hsame : first = second
      · subst hsame
        have hr := hins (BaseType.ofId (level + 1) first) (BaseType.level_ofId ..)
          (op.single (level + 2) p)
        refine ⟨_, ?_, ?_, hr.grown.queue, hr.idle⟩
        · rw [ProjectionF.projectCandidate]
          dsimp only
          rw [if_pos rfl, hp, map_some]
        · refine (h.inserted _ hr (fun r hr => ?_) (fun _ => .inl) (fun _ => .inr)).discharge _
            ⟨fun h => absurd h (Nat.succ_ne_zero level), fun _ p' hp' => ?_,
              fun hne => absurd rfl hne⟩
          · exact fun _ _ hpl => .single (h.aside.sound _ _ _ hp) hlt hr hpl
          · rw [hr.grown.kept _ _ p hp] at hp'
            obtain rfl := some_inj.mp hp'
            exact hr.placed
      · have hr := hins (BaseType.mk' (level + 1) first second) (BaseType.level_mk' ..)
          (op.paired (level + 2) p q)
        refine ⟨_, ?_, ?_, hr.grown.queue, hr.idle⟩
        · rw [ProjectionF.projectCandidate]
          dsimp only
          rw [if_neg hsame, hp, bind_some, hq, map_some]
        · have hne : p ≠ q := by
            rintro rfl
            exact hsame (h.wellFormed.id_eq hp hq)
          refine (h.inserted _ hr (fun r hr => ?_) (fun _ => .inl) (fun _ => .inr)).discharge _
            ⟨fun h => absurd h (Nat.succ_ne_zero level), fun h => absurd h hsame,
              fun _ p' q' hp' hq' => ?_⟩
          · exact fun _ _ hpl =>
              .paired (h.aside.sound _ _ _ hp) (h.aside.sound _ _ _ hq) hne hlt hr hpl
          · rw [hr.grown.kept _ _ p hp] at hp'
            rw [hr.grown.kept _ _ q hq] at hq'
            obtain rfl := some_inj.mp hp'
            obtain rfl := some_inj.mp hq'
            exact hr.placed

/-- Projection never fails, and only a projection that is complete reports nothing new. -/
theorem InvAside.project (hdim : 0 < dim) {fuel : ℕ}
    (h : InvAside op dim constraints (· ∈ s.projectionQueue) s)
    (hfuel : s.projectionQueue.length ≤ fuel) :
    ∃ r, project op pool less dim fuel s = some r ∧
      InvAside op dim constraints (· ∈ r.2.projectionQueue) r.2 ∧
      (r.1 = ∅ → r.2.projectionQueue = []) := by
  induction fuel generalizing s with
  | zero => exact ⟨(∅, s), rfl, h, fun _ => length_eq_zero_iff.mp (Nat.le_zero.mp hfuel)⟩
  | succ fuel ih =>
    rw [ProjectionF.project]
    cases hqueue : s.projectionQueue with
    | nil => exact ⟨(∅, s), rfl, h, fun _ => hqueue⟩
    | cons qe rest =>
      dsimp only
      set candidate := s.top less qe rest
      have hmem : candidate ∈ s.projectionQueue := by
        rw [hqueue]
        exact top_mem less s qe rest
      rw [← hqueue]
      have hpopped := h.of_queue (s.projectionQueue.erase candidate)
        fun e he => h.valid e (mem_of_mem_erase he)
      obtain ⟨r, hr, hinv, hkept, hidle⟩ :=
        hpopped.projectCandidate pool hdim (h.valid candidate hmem)
      have hinv : InvAside op dim constraints (· ∈ r.2.projectionQueue) r.2 := by
        refine hinv.mono _ fun e ⟨hwaits, hne⟩ => ?_
        rcases hwaits with hwaits | hwaits
        · exact hkept e ((mem_erase_of_ne hne).mpr hwaits)
        · exact hwaits
      rw [hr, bind_some]
      split_ifs with hempty
      · refine ih hinv ?_
        have hpop : r.2.projectionQueue = s.projectionQueue.erase candidate := hidle hempty
        rw [hpop, length_erase_of_mem hmem]
        omega
      · exact ⟨r, rfl, hinv, fun h => absurd h hempty⟩

theorem InvAside.addPolynomial {cid : ℕ} (hdim : 0 < dim)
    (h : InvAside op dim constraints (· ∈ s.projectionQueue) s) (p : P) (isBound : Bool)
    (hcid : cid ∉ constraints.map (·.1)) :
    InvAside op dim ((cid, p) :: constraints)
      (· ∈ (addPolynomial op pool dim p cid isBound s).projectionQueue)
      (addPolynomial op pool dim p cid isBound s) := by
  have hrec := h.receive p hcid
  rw [ProjectionF.addPolynomial]
  dsimp only
  split_ifs
  · have hr := insertPolynomialTo_inserted op pool (p := p) (show dim - 1 + 1 = dim by omega)
      le_rfl hrec.wellFormed ((BaseType.level_ofId 0 cid).trans_lt Nat.one_pos)
    have hinv := hrec.inserted (fun e => e ∈ (insertPolynomialTo op pool
        (dim - 1) 1 p (BaseType.ofId 0 cid)
        { s with received := update s.received cid (some p) }).2.projectionQueue ∨
          e = ⟨0, cid, cid⟩) hr (fun q hq => by
        rw [Set.mem_singleton_iff.mp hq]
        exact placed_reach ⟨cid, mem_cons_self⟩)
      (fun e => Or.imp_left (hr.grown.queue e)) (fun _ => .inl)
    refine (hinv.discharge ⟨0, cid, cid⟩ ⟨fun _ q hq => ?_, fun _ q hq => ?_,
      fun hne => absurd rfl hne⟩).mono _ fun e ⟨hwaits, hne⟩ => hwaits.resolve_right hne
    · have hq := hinv.received cid q |>.mp hq
      rcases mem_cons.mp hq with heq | hq
      · rw [(Prod.mk.inj heq).2]
        exact hr.placed _ rfl
      · exact absurd (List.mem_map_of_mem hq) hcid
    · exact absurd (hinv.one_le hq) (Nat.not_succ_le_zero 0)
  · have hinv := hrec.of_queue (s.projectionQueue ++ [⟨0, cid, cid⟩]) (by
      intro e he
      rcases mem_append.mp he with he | he
      · exact hrec.valid e he
      · refine .inl ?_
        rw [mem_singleton.mp he]
        refine ⟨rfl, rfl, ?_⟩
        show (update s.received cid (some p) cid).isSome
        rw [update_self]
        rfl)
    refine hinv.mono _ fun e he => ?_
    rcases he with he | rfl
    · exact mem_append_left _ he
    · exact mem_append_right _ mem_cons_self

end Invariant

/-! ## Runs -/

section Runs

variable [LinearOrder P] (op : ProjectionOperator P) (pool : IDPool) (less : Comparator P) (dim : ℕ)

/-- Constraints are removed in any order, and an id is not used twice at a time. -/
def step (t : Tracked (ProjectionF P) P) : ProjectionEvent P → Option (Tracked (ProjectionF P) P)
  | .addPolynomial p cid isBound =>
    if cid ∈ t.constraints.map (·.1) then none
    else some ⟨(cid, p) :: t.constraints, addPolynomial op pool dim p cid isBound t.projection⟩
  | .removePolynomial p cid =>
    if (cid, p) ∈ t.constraints then
      some ⟨t.constraints.filter (·.1 ≠ cid), (t.projection.removePolynomial dim cid).2⟩
    else none
  | .projectNewPolynomial =>
    (projectNewPolynomial op pool less dim t.projection).map fun r => ⟨t.constraints, r.2⟩

/-- A removal concerns polynomials that are reachable from the other constraints as well. -/
def Keeps (t : Tracked (ProjectionF P) P) : ProjectionEvent P → Prop
  | .removePolynomial _ cid => ∀ level, ∀ q ∈ t.projection.levels level,
      Reach (op.forwarding dim) (polynomialsOf (t.constraints.filter (·.1 ≠ cid))) level q
  | _ => True

variable {op} {pool} {less} {dim} {t t' : Tracked (ProjectionF P) P}

theorem Inv.step (hdim : 0 < dim) (h : Inv op dim t) {e : ProjectionEvent P}
    (hkeeps : Keeps op dim t e) (hstep : step op pool less dim t e = some t') : Inv op dim t' := by
  cases e with
  | addPolynomial p cid isBound =>
    rw [ProjectionF.step] at hstep
    split_ifs at hstep with hcid
    obtain rfl := some_inj.mp hstep
    exact InvAside.addPolynomial pool hdim h p isBound hcid
  | removePolynomial p cid =>
    rw [ProjectionF.step] at hstep
    split_ifs at hstep with hmem
    obtain rfl := some_inj.mp hstep
    exact InvAside.removePolynomial h hkeeps
  | projectNewPolynomial =>
    rw [ProjectionF.step] at hstep
    obtain ⟨r, hr, rfl⟩ := map_eq_some_iff.mp hstep
    obtain ⟨r', hr', hinv, -⟩ := InvAside.project pool less hdim h le_rfl
    have hr : ProjectionF.project op pool less dim t.projection.projectionQueue.length t.projection
      = some r := hr
    obtain rfl := some_inj.mp (hr.symm.trans hr')
    exact hinv

end Runs

end ProjectionF

end Smtrat.CAD
