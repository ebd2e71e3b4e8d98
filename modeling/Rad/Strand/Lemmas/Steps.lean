import Rad.Strand.Basic

/-!
# What the steps of a strand keep

The operations of a strand are those that a call of `run` has taken, `rs`, and those of its state, `qs`. Nobody has the
strand, or its inner executor has it once, or one call of `run` has it.
-/

namespace Rad.Strand

variable {ν τ : Type} {s t : State ν τ} {rs qs ns ops : List ν} {op : ν}

/-- Who has the strand, with the operations that are taken. -/
inductive Owner (s : State ν τ) : List ν → Prop where
  | nobody (hstate : s.runState = .idle) (hqueue : s.innerQueue.count .strand = 0) (hruns : s.runs = []) : Owner s []
  | executor (hstate : s.runState = .pending) (hqueue : s.innerQueue.count .strand = 1) (hruns : s.runs = []) :
      Owner s []
  | entered (a : Activation ν τ) (hstate : s.runState = .pending) (hqueue : s.innerQueue.count .strand = 0)
      (hruns : s.runs = [a]) (hphase : a.phase = .entering) (hops : a.readyOps = {}) : Owner s []
  | runner (a : Activation ν τ) {rs : List ν} (hstate : s.runState = .executing)
      (hqueue : s.innerQueue.count .strand = 0) (hruns : s.runs = [a]) (hphase : a.phase ≠ .entering)
      (hops : Holds s.links a.readyOps rs) : Owner s rs

/-- The invariant of the steps. -/
structure Inv (s : State ν τ) (rs qs : List ν) : Prop where
  owner : Owner s rs
  ops : Holds s.links s.ops qs
  nodup : (rs ++ qs).Nodup
  idle : s.runState = .idle → qs = []

theorem Inv.fresh (links : Links ν) : Inv (State.fresh links : State ν τ) [] [] :=
  ⟨.nobody rfl rfl rfl, Holds.empty, List.nodup_nil, fun _ => rfl⟩

/-! ## What the invariant says -/

theorem Inv.linked (h : Inv s rs qs) : s.linked = rs ++ qs := by
  rw [State.linked, h.ops.nodes]
  cases h.owner with
  | nobody _ _ hruns => rw [hruns]; rfl
  | executor _ _ hruns => rw [hruns]; rfl
  | entered a _ _ hruns _ hops => rw [hruns, List.flatMap_singleton, hops]; rfl
  | runner a _ _ hruns _ hops => rw [hruns, List.flatMap_singleton, hops.nodes]

theorem Inv.alone (h : Inv s rs qs) : s.innerQueue.count .strand + s.runs.length ≤ 1 := by
  cases h.owner with
  | nobody _ hqueue hruns => rw [hqueue, hruns]; exact Nat.zero_le 1
  | executor _ hqueue hruns => rw [hqueue, hruns]; exact Nat.le_refl 1
  | entered a _ hqueue hruns => rw [hqueue, hruns]; exact Nat.le_refl 1
  | runner a _ hqueue hruns => rw [hqueue, hruns]; exact Nat.le_refl 1

theorem Inv.owned (h : Inv s rs qs) : s.runState ≠ .idle ↔ s.innerQueue.count .strand + s.runs.length = 1 := by
  cases h.owner with
  | nobody hstate hqueue hruns => rw [hstate, hqueue, hruns]; exact ⟨fun h => absurd rfl h, fun h => nomatch h⟩
  | executor hstate hqueue hruns => rw [hstate, hqueue, hruns]; exact ⟨fun _ => rfl, fun _ => by decide⟩
  | entered a hstate hqueue hruns => rw [hstate, hqueue, hruns]; exact ⟨fun _ => rfl, fun _ => by decide⟩
  | runner a hstate hqueue hruns => rw [hstate, hqueue, hruns]; exact ⟨fun _ => rfl, fun _ => by decide⟩

theorem Inv.taken_of_idle (h : Inv s rs qs) (hidle : s.runState = .idle) : rs = [] := by
  cases h.owner with
  | nobody => rfl
  | executor => rfl
  | entered => rfl
  | runner a hstate => exact absurd (hidle.symm.trans hstate) (by decide)

/-! ## Steps that link no operation -/

theorem Owner.sameBut (h : Owner s rs) (hstate : t.runState = s.runState)
    (hqueue : t.innerQueue.count .strand = s.innerQueue.count .strand) (hruns : t.runs = s.runs)
    (hlinks : SameBut ns s.links t.links) (hdisjoint : ∀ n ∈ rs, n ∉ ns) : Owner t rs := by
  cases h with
  | nobody hs hq hr => exact .nobody (hstate.trans hs) (hqueue.trans hq) (hruns.trans hr)
  | executor hs hq hr => exact .executor (hstate.trans hs) (hqueue.trans hq) (hruns.trans hr)
  | entered a hs hq hr hphase hops =>
      exact .entered a (hstate.trans hs) (hqueue.trans hq) (hruns.trans hr) hphase hops
  | runner a hs hq hr hphase hops =>
      exact .runner a (hstate.trans hs) (hqueue.trans hq) (hruns.trans hr) hphase (hops.sameBut hlinks hdisjoint)

theorem Inv.same (h : Inv s rs qs) (hstate : t.runState = s.runState)
    (hqueue : t.innerQueue.count .strand = s.innerQueue.count .strand) (hruns : t.runs = s.runs)
    (hlinks : t.links = s.links) (hops : t.ops = s.ops) : Inv t rs qs where
  owner := by
    have hsame : SameBut [] s.links t.links := fun n _ => by rw [hlinks]
    exact h.owner.sameBut hstate hqueue hruns hsame fun _ _ => List.not_mem_nil
  ops := by rw [hlinks, hops]; exact h.ops
  nodup := h.nodup
  idle hidle := h.idle (hstate.symm.trans hidle)

theorem postWaiter_same (s : State ν τ) : s.postWaiter.runState = s.runState ∧
    s.postWaiter.innerQueue.count .strand = s.innerQueue.count .strand ∧ s.postWaiter.runs = s.runs ∧
    s.postWaiter.links = s.links ∧ s.postWaiter.ops = s.ops := by
  rw [State.postWaiter]
  split
  · exact ⟨rfl, List.count_append .., rfl, rfl, rfl⟩
  · exact ⟨rfl, rfl, rfl, rfl, rfl⟩

theorem Inv.postWaiter (h : Inv s rs qs) : Inv s.postWaiter rs qs := by
  obtain ⟨hstate, hqueue, hruns, hlinks, hops⟩ := postWaiter_same s
  exact h.same hstate hqueue hruns hlinks hops

theorem Inv.start (h : Inv s rs qs) (hqueue : InnerOp.strand ∈ s.innerQueue) (thread : τ) :
    Inv { s with innerQueue := s.innerQueue.erase .strand, runs := s.runs ++ [{ thread := thread }] } rs qs := by
  have hcount : 0 < s.innerQueue.count .strand := List.count_pos_iff.2 hqueue
  cases h.owner with
  | nobody _ hzero => exact absurd hzero (Nat.ne_of_gt hcount)
  | executor hstate hone hruns =>
      refine ⟨.entered { thread := thread } hstate ?_ ?_ rfl rfl, h.ops, h.nodup, h.idle⟩
      · show (s.innerQueue.erase .strand).count .strand = 0
        rw [List.count_erase_self, hone]
      · show s.runs ++ [_] = [_]
        rw [hruns]
        rfl
  | entered _ _ hzero => exact absurd hzero (Nat.ne_of_gt hcount)
  | runner _ _ hzero => exact absurd hzero (Nat.ne_of_gt hcount)

/-- A call of `run` that invokes an operation, or goes from one of its loops to the other. -/
theorem Inv.turn {a a' : Activation ν τ} {l : ForwardList ν} {rs' qs' : List ν} (h : Inv s rs qs)
    (hstate : s.runState = .executing) (hruns : s.runs = [a]) (hphase : a'.phase ≠ .entering)
    (hready : Holds s.links a'.readyOps rs') (hl : Holds s.links l qs') (hnodup : (rs' ++ qs').Nodup) :
    Inv { s with ops := l, runs := s.runs.set 0 a' } rs' qs' := by
  have hqueue : s.innerQueue.count .strand = 0 := by
    have halone := h.alone
    rw [hruns, List.length_singleton] at halone
    exact Nat.eq_zero_of_le_zero (Nat.le_of_succ_le_succ halone)
  exact ⟨.runner a' hstate hqueue (by rw [hruns]; rfl) hphase hready, hl, hnodup,
    fun hidle => absurd (hstate.symm.trans hidle) (by decide)⟩

/-! ## Posting -/

/-- Operations are put at the end of those of the state, and the strand is posted when nobody has it. -/
theorem Inv.enqueue {links : Links ν} {l : ForwardList ν} (h : Inv s rs qs) (hl : Holds links l (qs ++ ns))
    (hlinks : SameBut (qs ++ ns) s.links links) (hnodup : (rs ++ (qs ++ ns)).Nodup) :
    Inv (if s.runState ≠ .idle then { s with links := links, ops := l }
      else State.postStrand { s with links := links, ops := l }) rs (qs ++ ns) := by
  have hdisjoint : ∀ n ∈ rs, n ∉ qs ++ ns := fun n hn hmem => (List.nodup_append.1 hnodup).2.2 n hn n hmem rfl
  by_cases hidle : s.runState = .idle
  · rw [if_neg (not_not.2 hidle)]
    cases h.owner with
    | nobody _ hqueue hruns =>
        refine ⟨.executor rfl ?_ hruns, hl, hnodup, fun hidle => nomatch hidle⟩
        show (s.innerQueue ++ [InnerOp.strand]).count .strand = 1
        rw [List.count_append, hqueue]
        rfl
    | executor hstate => exact absurd (hidle.symm.trans hstate) (by decide)
    | entered a hstate => exact absurd (hidle.symm.trans hstate) (by decide)
    | runner a hstate => exact absurd (hidle.symm.trans hstate) (by decide)
  · rw [if_pos hidle]
    exact ⟨h.owner.sameBut rfl rfl rfl hlinks hdisjoint, hl, hnodup, fun h => absurd h hidle⟩

variable [DecidableEq ν]

theorem Inv.doPostFinished (h : Inv s rs qs) (hop : op ∉ rs ++ qs) :
    ∃ t, s.doPostFinished op = some t ∧ Inv t rs (qs ++ [op]) := by
  obtain ⟨links, l, hpush, hl, hlinks⟩ := h.ops.pushBack fun hmem => hop (List.mem_append_right rs hmem)
  have hnodup : (rs ++ (qs ++ [op])).Nodup := by
    rw [← List.append_assoc]
    exact (List.perm_append_singleton op (rs ++ qs)).nodup_iff.2 (List.nodup_cons.2 ⟨hop, h.nodup⟩)
  rw [State.doPostFinished, hpush]
  exact ⟨_, rfl, h.enqueue hl hlinks hnodup⟩

theorem Inv.doPostFinishedList {l : ForwardList ν} (h : Inv s rs qs) (hl : Holds s.links l ns)
    (hnodup : (rs ++ (qs ++ ns)).Nodup) : ∃ t, s.doPostFinishedList l = some t ∧ Inv t rs (qs ++ ns) := by
  obtain ⟨links, l', hmerge, hl', hlinks⟩ := h.ops.mergeBack hl (List.nodup_append.1 hnodup).2.1
  rw [State.doPostFinishedList, hmerge]
  exact ⟨_, rfl, h.enqueue hl' hlinks hnodup⟩

/-- Nodes that are in no list are put together to one. -/
theorem exists_link (links : Links ν) {l : ForwardList ν} (hl : Holds links l ns) (hnodup : (ns ++ ops).Nodup) :
    ∃ links' l', ops.foldlM (fun (p : Links ν × ForwardList ν) op => p.2.pushBack p.1 op) (links, l) =
      some (links', l') ∧ Holds links' l' (ns ++ ops) ∧ SameBut (ns ++ ops) links links' := by
  induction ops generalizing links l ns with
  | nil =>
      rw [List.append_nil]
      exact ⟨links, l, rfl, hl, fun _ _ => rfl⟩
  | cons op ops ih =>
      rw [List.append_cons] at hnodup ⊢
      have hop : op ∉ ns := fun hmem =>
        (List.nodup_append.1 (List.nodup_append.1 hnodup).1).2.2 op hmem op (List.mem_singleton.2 rfl) rfl
      obtain ⟨links', l', hpush, hl', hlinks'⟩ := hl.pushBack hop
      obtain ⟨links'', l'', hfold, hl'', hlinks''⟩ := ih links' hl' hnodup
      refine ⟨links'', l'', ?_, hl'', fun n hn => (hlinks'' n hn).trans (hlinks' n ?_)⟩
      · rw [List.foldlM_cons, hpush]
        exact hfold
      · exact fun hmem => hn (List.mem_append_left _ hmem)

theorem Inv.link (h : Inv s rs qs) (hops : ops.Nodup) (hnew : ∀ op ∈ ops, op ∉ rs ++ qs) :
    ∃ t l, s.link ops = some (t, l) ∧ Inv t rs qs ∧ Holds t.links l ops := by
  obtain ⟨links, l, hfold, hl, hlinks⟩ := exists_link s.links Holds.empty hops
  have hrs : ∀ n ∈ rs, n ∉ ops := fun n hn hmem => hnew n hmem (List.mem_append_left _ hn)
  have hqs : ∀ n ∈ qs, n ∉ ops := fun n hn hmem => hnew n hmem (List.mem_append_right _ hn)
  rw [State.link, hfold]
  exact ⟨_, l, rfl, ⟨h.owner.sameBut rfl rfl rfl hlinks hrs, h.ops.sameBut hlinks hqs, h.nodup, h.idle⟩, hl⟩

/-! ## The end of a call of `run` -/

theorem Inv.afterRun {a : Activation ν τ} (h : Inv s rs qs) (hruns : s.runs = [a])
    (hready : Holds s.links a.readyOps rs) :
    ∃ t, s.afterRun a.readyOps = some t ∧ Inv { t with runs := t.runs.eraseIdx 0 } [] (rs ++ qs) := by
  obtain ⟨links, l, hmerge, hl, -⟩ := h.ops.mergeFront hready h.nodup
  have hqueue : s.innerQueue.count .strand = 0 := by
    have halone := h.alone
    rw [hruns, List.length_singleton] at halone
    exact Nat.eq_zero_of_le_zero (Nat.le_of_succ_le_succ halone)
  have herase : s.runs.eraseIdx 0 = [] := by rw [hruns]; rfl
  have hmerged : (if a.readyOps.isEmpty then some (s.links, s.ops) else s.ops.mergeFront s.links a.readyOps) =
      some (links, l) := by
    rw [← hmerge, ForwardList.mergeFront]
    split <;> rfl
  simp only [State.afterRun, hmerged, Option.map_some]
  by_cases hempty : rs ++ qs = []
  · have hisEmpty : l.isEmpty = true := hl.isEmpty_iff.2 hempty
    rw [hisEmpty, if_neg (by decide)]
    refine ⟨_, rfl, ?_⟩
    have hidle (t : State ν τ) (hstate : t.runState = .idle) (hcount : t.innerQueue.count .strand = 0)
        (hnone : t.runs = []) (hlinks : t.links = links) (hops : t.ops = l) : Inv t [] (rs ++ qs) :=
      ⟨.nobody hstate hcount hnone, by rw [hlinks, hops]; exact hl, h.nodup, fun _ => hempty⟩
    split
    · obtain ⟨hstate, hcount, hruns', hlinks, hops⟩ := postWaiter_same
        { s with id := none, links := links, ops := l, runState := .idle }
      exact hidle _ hstate (hcount.trans hqueue) (by rw [hruns']; exact herase) hlinks hops
    · exact hidle _ rfl hqueue herase rfl rfl
  · have hisEmpty : l.isEmpty = false := Bool.eq_false_iff.2 (mt hl.isEmpty_iff.1 hempty)
    rw [hisEmpty]
    refine ⟨_, rfl, .executor rfl ?_ herase, hl, h.nodup, fun hidle => by cases hidle⟩
    show (s.innerQueue ++ [InnerOp.strand]).count .strand = 1
    rw [List.count_append, hqueue]
    rfl

end Rad.Strand
