import ChessArchive.Import.Counting
import ChessArchive.Proofs.Import.Conservation

/-! What the counters and the snapshots of an import tell while workers count. An import whose counting is taken apart
    is behind an import that counts at once by what its workers have yet to count, and nothing is counted that is not
    committed. -/

namespace ChessArchive

/-! ### What is left to count -/

namespace CounterStep

/-- The games that a step counts as imported. -/
def imported : CounterStep → Nat
  | addImported n => n
  | _ => 0

def failed : CounterStep → Nat
  | addFailed n => n
  | _ => 0

def discarded : CounterStep → Nat
  | addDiscarded n => n
  | _ => 0

end CounterStep

/-- The counters after some counting. -/
def ImportCounters.after (c : ImportCounters) (steps : List CounterStep) : ImportCounters :=
  ⟨c.imported + (steps.map CounterStep.imported).sum, c.failed + (steps.map CounterStep.failed).sum,
    c.discarded + (steps.map CounterStep.discarded).sum⟩

namespace ImportCounters

/-- No counter is smaller. -/
structure Le (c d : ImportCounters) : Prop where
  imported : c.imported ≤ d.imported
  failed : c.failed ≤ d.failed
  discarded : c.discarded ≤ d.discarded

theorem Le.refl (c : ImportCounters) : c.Le c := ⟨Nat.le_refl _, Nat.le_refl _, Nat.le_refl _⟩

theorem Le.trans {c d e : ImportCounters} (h : c.Le d) (k : d.Le e) : c.Le e :=
  ⟨h.imported.trans k.imported, h.failed.trans k.failed, h.discarded.trans k.discarded⟩

theorem after_append (c : ImportCounters) (xs ys : List CounterStep) :
    c.after (xs ++ ys) = (c.after xs).after ys := by
  simp [after, Nat.add_assoc]

theorem after_perm (c : ImportCounters) {xs ys : List CounterStep} (h : xs.Perm ys) : c.after xs = c.after ys := by
  rw [after, (h.map _).sum_eq, (h.map _).sum_eq, (h.map _).sum_eq, after]

theorem after_outcome (c : ImportCounters) (o : BatchOutcome) (label : String) :
    c.after (o.counting ++ [.report label]) = c.addOutcome o := by
  cases o <;> simp [after, BatchOutcome.counting, addOutcome, CounterStep.imported, CounterStep.failed,
    CounterStep.discarded]

end ImportCounters

/-! ### Counting does not matter to an import -/

namespace ImportState
variable {keys : FingerprintKeys} {settings : ImportSettings} {s t : ImportState} {a : ImportAction}

/-- The same import with other counters and other snapshots. -/
def recount (s : ImportState) (c : ImportCounters) (received : List Snapshot) : ImportState :=
  { s with counters := c, snapshots := received }

theorem recount_snapshot (s : ImportState) (capacity : Nat) (label : String) (c : ImportCounters)
    (received : List Snapshot) : (s.snapshot capacity label).recount c received = s.recount c received := by
  obtain ⟨_, hframe⟩ := snapshot_frame s capacity label
  rw [hframe]
  rfl

theorem snapshot_recount (s : ImportState) (capacity : Nat) (label : String) (c : ImportCounters)
    (received : List Snapshot) :
    ∃ more, (s.recount c received).snapshot capacity label = s.recount c more := by
  obtain ⟨more, hframe⟩ := snapshot_frame (s.recount c received) capacity label
  exact ⟨more, hframe⟩

section
variable {i j : Nat} {raw : RawGame}

theorem counting_of_ok {g : DecodedGame} (hd : s.decoders[i]? = some (.holding raw))
    (hg : DecodedGame.ofRaw keys raw = .ok g) : s.counting keys (.decode i) = [] := by
  simp [counting, hd, hg]

theorem counting_of_error {cause : ArchiveError} (hd : s.decoders[i]? = some (.holding raw))
    (hg : DecodedGame.ofRaw keys raw = .error cause) :
    s.counting keys (.decode i) = [.addFailed 1, .report raw.label] := by
  simp [counting, hd, hg]

theorem counting_of_outcome {w : Writer} {outcome : BatchOutcome} {label : String} {last : Bool}
    (hw : s.writers[j]? = some w) (hphase : w.phase = .reporting outcome label last) :
    s.counting keys (.report j) = outcome.counting ++ [.report label] := by
  rcases w with ⟨phase, batch, errors⟩
  obtain rfl : phase = .reporting outcome label last := hphase
  simp [counting, hw]

end

/-- Whatever the counters are, an action does the same and counts the same. -/
theorem Move.recount (h : Move keys settings s a t) (c : ImportCounters) (received : List Snapshot) :
    ∃ more, Move keys settings (s.recount c received) a (t.recount (c.after (s.counting keys a)) more) := by
  cases h with
  | cancel => exact ⟨received, .cancel⟩
  | closeInput => exact ⟨received, .closeInput⟩
  | take hd hc hi => exact ⟨received, .take hd hc hi⟩
  | stop hd hend => exact ⟨received, .stop hd hend⟩
  | accept hd hg =>
    rw [counting_of_ok hd hg]
    exact ⟨received, .accept hd hg⟩
  | @reject i raw cause hd hg =>
    simp only [counting_of_error hd hg, recount_snapshot]
    obtain ⟨more, hsnapshot⟩ := snapshot_recount (s.setDecoder i .idle) settings.progressCapacity raw.label
      { c with failed := c.failed + 1 } received
    have hmove : Move keys settings (s.recount c received) (.decode i) _ := .reject hd hg
    exact ⟨more, hsnapshot ▸ hmove⟩
  | send hd hc hopen hq => exact ⟨received, .send hd hc hopen hq⟩
  | discard hd hc => exact ⟨received, .discard hd hc⟩
  | abandon hd hc hclosed => exact ⟨received, .abandon hd hc hclosed⟩
  | receive hw hwaits hc hq => exact ⟨received, .receive hw hwaits hc hq⟩
  | tick hw hphase hc => exact ⟨received, .tick hw hphase hc⟩
  | leave hw hwaits hend => exact ⟨received, .leave hw hwaits hend⟩
  | commit succeeds hw hphase => exact ⟨received, .commit succeeds hw hphase⟩
  | @report j w outcome label last hw hphase =>
    simp only [counting_of_outcome hw hphase, ImportCounters.after_outcome, recount_snapshot]
    obtain ⟨more, hsnapshot⟩ := snapshot_recount
      (s.setWriter j ⟨if last then .done else .idle, w.batch, w.errors ++ outcome.errors⟩) settings.progressCapacity
      label (c.addOutcome outcome) received
    have hmove : Move keys settings (s.recount c received) (.report j) _ := .report hw hphase
    exact ⟨more, hsnapshot ▸ hmove⟩
  | drain hd hw hopen => exact ⟨received, .drain hd hw hopen⟩
  | finish hclosed =>
    simp only [ImportState.finish, recount_snapshot]
    obtain ⟨more, hsnapshot⟩ := snapshot_recount { s with finished := true } settings.progressCapacity "" c received
    have hmove : Move keys settings (s.recount c received) .finish _ := .finish hclosed
    exact ⟨more, hsnapshot ▸ hmove⟩

end ImportState

/-! ### Steps -/

namespace CounterStep

/-- A step that does not go on with a snapshot. -/
def Fresh : CounterStep → Prop
  | complete _ _ => False
  | send _ => False
  | _ => True

/-- A step changes the counters as it says, and lets snapshots be made or received. -/
theorem run_frame (capacity : Nat) (s : CountingState) (c : CounterStep) :
    ∃ received made, (c.run capacity s).1 =
      ⟨s.pipeline.recount (s.pipeline.counters.after [c]) received, made, s.tasks⟩ := by
  cases c with
  | addImported n => exact ⟨_, _, rfl⟩
  | addFailed n => exact ⟨_, _, rfl⟩
  | addDiscarded n => exact ⟨_, _, rfl⟩
  | report label => exact ⟨_, _, rfl⟩
  | complete imported label => exact ⟨_, _, rfl⟩
  | send p =>
    rw [run]
    split <;> exact ⟨_, _, rfl⟩

/-- What follows a step counts nothing. -/
theorem run_after (capacity : Nat) (s : CountingState) (c : CounterStep) (d : ImportCounters) :
    d.after (c.run capacity s).2.toList = d := by
  cases c with
  | send p =>
    rw [run]
    split <;> rfl
  | _ => rfl

section
variable {capacity : Nat} {s : CountingState} {c : CounterStep} {p : Snapshot}

theorem run_made : p ∈ (c.run capacity s).1.made ↔
    p ∈ s.made ∨ ∃ n label, c = .complete n label ∧ p = ⟨n, s.pipeline.counters.failed, label⟩ := by
  cases c with
  | complete n label =>
    rw [run, List.mem_cons, or_comm]
    simp
  | send q =>
    rw [run]
    split <;> simp
  | _ => simp [run]

theorem run_received (h : p ∈ (c.run capacity s).1.pipeline.snapshots) :
    p ∈ s.pipeline.snapshots ∨ c = .send p := by
  cases c with
  | send q =>
    rw [run] at h
    split at h
    · rcases List.mem_cons.mp h with rfl | h
      · exact Or.inr rfl
      · exact Or.inl h
    · exact Or.inl h
  | _ => exact Or.inl h

theorem run_begins {n : Nat} {label : String} (h : .complete n label ∈ (c.run capacity s).2.toList) :
    n = s.pipeline.counters.imported := by
  cases c with
  | report other =>
    cases List.mem_singleton.mp h
    rfl
  | complete m other => exact nomatch List.mem_singleton.mp h
  | send q =>
    rw [run] at h
    split at h <;> cases h
  | _ => cases h

theorem run_sends (h : .send p ∈ (c.run capacity s).2.toList) : p ∈ (c.run capacity s).1.made := by
  cases c with
  | report other => exact nomatch List.mem_singleton.mp h
  | complete m label =>
    cases List.mem_singleton.mp h
    exact List.mem_cons_self
  | send q =>
    rw [run] at h
    split at h <;> cases h
  | _ => cases h

end

end CounterStep

theorem BatchOutcome.counting_fresh (o : BatchOutcome) : ∀ c ∈ o.counting, c.Fresh := by
  cases o <;> simp [counting, CounterStep.Fresh]

theorem ImportState.counting_fresh (keys : FingerprintKeys) (s : ImportState) (a : ImportAction) :
    ∀ c ∈ s.counting keys a, c.Fresh := by
  cases a with
  | decode i =>
    simp only [ImportState.counting]
    split
    · split <;> simp [CounterStep.Fresh]
    · nofun
  | report j =>
    simp only [ImportState.counting]
    split
    · rw [List.forall_mem_append]
      exact ⟨BatchOutcome.counting_fresh _, by simp [CounterStep.Fresh]⟩
    · nofun
  | _ => simp [ImportState.counting, CounterStep.Fresh]

namespace CountingState
variable {keys : FingerprintKeys} {settings : ImportSettings} {s t : CountingState}

/-- What is left to be counted. -/
def left (s : CountingState) : List CounterStep := s.tasks.flatMap (·.2)

/-- The counters when all has been counted. -/
def settled (s : CountingState) : ImportCounters := s.pipeline.counters.after s.left

theorem left_set {tasks : List (Worker × List CounterStep)} {k : Nat} {w : Worker} {c : CounterStep}
    {rest : List CounterStep} (h : tasks[k]? = some (w, c :: rest)) (more : List CounterStep) :
    ∃ others, (tasks.flatMap (·.2)).Perm (c :: others) ∧
      ((tasks.set k (w, more ++ rest)).flatMap (·.2)).Perm (more ++ others) := by
  induction tasks generalizing k with
  | nil => simp at h
  | cons task tasks ih =>
    cases k with
    | zero =>
      obtain rfl : task = (w, c :: rest) := by simpa using h
      refine ⟨rest ++ tasks.flatMap (·.2), .refl _, ?_⟩
      rw [List.set_cons_zero, List.flatMap_cons, List.append_assoc]
    | succ k =>
      obtain ⟨others, hbefore, hafter⟩ := ih (by simpa using h)
      refine ⟨task.2 ++ others, ?_, ?_⟩
      · rw [List.flatMap_cons]
        exact (hbefore.append_left task.2).trans List.perm_middle
      · rw [List.set_cons_succ, List.flatMap_cons]
        refine (hafter.append_left task.2).trans ?_
        rw [← List.append_assoc, ← List.append_assoc]
        exact List.perm_append_comm.append_right others

theorem step_act {a : ImportAction} (h : s.step keys settings (.act a) = some t) :
    s.isFree a = true ∧ ∃ next, s.pipeline.step keys settings a = some next ∧
      t = ⟨next.recount s.pipeline.counters s.pipeline.snapshots, s.made,
        s.tasks ++ [(a.worker, s.pipeline.counting keys a)]⟩ := by
  simp only [step] at h
  split at h
  · rename_i hfree
    obtain ⟨next, hnext, rfl⟩ := Option.map_eq_some_iff.mp h
    exact ⟨hfree, next, hnext, rfl⟩
  · cases h

theorem step_count {k : Nat} (h : s.step keys settings (.count k) = some t) :
    ∃ w c rest, s.tasks[k]? = some (w, c :: rest) ∧
      t = { (c.run settings.progressCapacity s).1 with
        tasks := s.tasks.set k (w, (c.run settings.progressCapacity s).2.toList ++ rest) } := by
  simp only [step] at h
  split at h
  · rename_i w c rest htask
    cases h
    exact ⟨w, c, rest, htask, rfl⟩
  · cases h

/-! ### What each step keeps -/

/-- An import that counts at once would be in this state but for what is left to be counted. -/
def Behind (keys : FingerprintKeys) (settings : ImportSettings) (initial : ImportState) (s : CountingState) : Prop :=
  ∃ received, ImportState.Run keys settings (fun _ => True) initial (s.pipeline.recount s.settled received)

theorem Behind.act {initial : ImportState} {a : ImportAction} (h : Behind keys settings initial s)
    (ht : s.step keys settings (.act a) = some t) : Behind keys settings initial t := by
  obtain ⟨received, hrun⟩ := h
  obtain ⟨-, next, hnext, rfl⟩ := step_act ht
  obtain ⟨hf, hmove⟩ := ImportState.step_iff.mp hnext
  obtain ⟨more, hcounted⟩ := hmove.recount s.settled received
  refine ⟨more, hrun.step a trivial (ImportState.step_iff.mpr ⟨hf, ?_⟩)⟩
  have hsettled : settled ⟨next.recount s.pipeline.counters s.pipeline.snapshots, s.made,
      s.tasks ++ [(a.worker, s.pipeline.counting keys a)]⟩ = s.settled.after (s.pipeline.counting keys a) := by
    rw [settled, left, List.flatMap_append, ImportCounters.after_append, List.flatMap_singleton]
    rfl
  rw [hsettled]
  exact hcounted

theorem count_frame {k : Nat} (h : s.step keys settings (.count k) = some t) :
    ∃ c received, t.pipeline = s.pipeline.recount (s.pipeline.counters.after [c]) received ∧ t.settled = s.settled := by
  obtain ⟨w, c, rest, htask, rfl⟩ := step_count h
  obtain ⟨others, hbefore, hafter⟩ := left_set htask (c.run settings.progressCapacity s).2.toList
  obtain ⟨received, made, hframe⟩ := c.run_frame settings.progressCapacity s
  refine ⟨c, received, by rw [hframe], ?_⟩
  rw [settled, left, ImportCounters.after_perm _ hafter, ImportCounters.after_append, c.run_after, hframe, settled,
    left, ImportCounters.after_perm _ hbefore]
  exact (ImportCounters.after_append _ [c] others).symm

theorem Behind.count {initial : ImportState} {k : Nat} (h : Behind keys settings initial s)
    (ht : s.step keys settings (.count k) = some t) : Behind keys settings initial t := by
  obtain ⟨received, hrun⟩ := h
  obtain ⟨c, others, hpipeline, hsettled⟩ := count_frame ht
  refine ⟨received, ?_⟩
  rw [hpipeline, hsettled]
  exact hrun

/-- Counting never takes anything back. -/
theorem counters_le {a : CountingAction} (h : s.step keys settings a = some t) :
    s.pipeline.counters.Le t.pipeline.counters := by
  cases a with
  | act a =>
    obtain ⟨-, next, -, rfl⟩ := step_act h
    exact .refl _
  | count k =>
    obtain ⟨c, received, hpipeline, -⟩ := count_frame h
    rw [hpipeline]
    exact ⟨Nat.le_add_right _ _, Nat.le_add_right _ _, Nat.le_add_right _ _⟩

/-- No snapshot tells more than the counters, nor will one that has been begun. -/
structure Truthful (s : CountingState) : Prop where
  made : ∀ p ∈ s.made, p.imported ≤ s.pipeline.counters.imported ∧ p.failed ≤ s.pipeline.counters.failed
  begun : ∀ n label, .complete n label ∈ s.left → n ≤ s.pipeline.counters.imported
  sent : ∀ p, .send p ∈ s.left → p ∈ s.made
  received : ∀ p ∈ s.pipeline.snapshots, p ∈ s.made

theorem Truthful.act {a : ImportAction} (h : s.Truthful) (ht : s.step keys settings (.act a) = some t) :
    t.Truthful := by
  obtain ⟨-, next, -, rfl⟩ := step_act ht
  have hold {c : CounterStep} (hc : ¬ c.Fresh)
      (hleft : c ∈ (s.tasks ++ [(a.worker, s.pipeline.counting keys a)]).flatMap (·.2)) : c ∈ s.left := by
    rw [List.flatMap_append, List.flatMap_singleton, List.mem_append] at hleft
    exact hleft.resolve_right fun hnew => hc (s.pipeline.counting_fresh keys a c hnew)
  exact {
    made := h.made
    begun := fun n label hn => h.begun n label (hold (fun hfresh => hfresh) hn)
    sent := fun p hp => h.sent p (hold (fun hfresh => hfresh) hp)
    received := h.received }

theorem Truthful.count {k : Nat} (h : s.Truthful) (ht : s.step keys settings (.count k) = some t) : t.Truthful := by
  have hle := counters_le ht
  obtain ⟨w, c, rest, htask, rfl⟩ := step_count ht
  obtain ⟨others, hbefore, hafter⟩ := left_set htask (c.run settings.progressCapacity s).2.toList
  have hc : c ∈ s.left := hbefore.symm.subset List.mem_cons_self
  have hmore {x : CounterStep} (hx : x ∈ (c.run settings.progressCapacity s).2.toList ++ others) :
      x ∈ (c.run settings.progressCapacity s).2.toList ∨ x ∈ s.left := by
    rcases List.mem_append.mp hx with hx | hx
    · exact Or.inl hx
    · exact Or.inr (hbefore.symm.subset (List.mem_cons_of_mem _ hx))
  refine ⟨fun p hp => ?_, fun n label hn => ?_, fun p hp => ?_, fun p hp => ?_⟩
  · rcases CounterStep.run_made.mp hp with hp | ⟨n, label, rfl, rfl⟩
    · exact ⟨(h.made p hp).1.trans hle.imported, (h.made p hp).2.trans hle.failed⟩
    · -- What was read first may be old by now; what is read last is not.
      exact ⟨h.begun n label hc, Nat.le_refl _⟩
  · rcases hmore (hafter.subset hn) with hn | hn
    · rw [CounterStep.run_begins hn]
      exact hle.imported
    · exact (h.begun n label hn).trans hle.imported
  · rcases hmore (hafter.subset hp) with hp | hp
    · exact CounterStep.run_sends hp
    · exact CounterStep.run_made.mpr (Or.inl (h.sent p hp))
  · rcases CounterStep.run_received hp with hp | rfl
    · exact CounterStep.run_made.mpr (Or.inl (h.received p hp))
    · exact CounterStep.run_made.mpr (Or.inl (h.sent p hc))

/-! ### Runs -/

section
variable {initial : ImportState} {actions : List CountingAction}

theorem perform_keeps {P : CountingState → Prop}
    (hstep : ∀ s t a, P s → s.step keys settings a = some t → P t) (hs : P s)
    (ht : s.perform keys settings actions = some t) : P t := by
  induction actions generalizing s with
  | nil =>
    cases ht
    exact hs
  | cons a actions ih =>
    obtain ⟨u, hu, ht⟩ := Option.bind_eq_some_iff.mp ht
    exact ih (hstep s u a hs hu) ht

theorem perform_counters_le (ht : s.perform keys settings actions = some t) :
    s.pipeline.counters.Le t.pipeline.counters :=
  perform_keeps (P := fun u => s.pipeline.counters.Le u.pipeline.counters)
    (fun _ _ _ hu hstep => hu.trans (counters_le hstep)) (.refl _) ht

theorem perform_behind (ht : (ofPipeline initial).perform keys settings actions = some t) :
    Behind keys settings initial t := by
  refine perform_keeps (fun u v a hu hv => ?_) ⟨initial.snapshots, .start⟩ ht
  cases a with
  | act a => exact hu.act hv
  | count k => exact hu.count hv

theorem perform_truthful (hnone : initial.snapshots = [])
    (ht : (ofPipeline initial).perform keys settings actions = some t) : t.Truthful := by
  have hstart : (ofPipeline initial).Truthful := by
    refine ⟨nofun, nofun, nofun, fun p hp => ?_⟩
    rw [ofPipeline, hnone] at hp
    cases hp
  refine perform_keeps (fun u v a hu hv => ?_) hstart ht
  cases a with
  | act a => exact hu.act hv
  | count k => exact hu.count hv

end

end CountingState

/-! ### Counting at once -/

/-- A step together with those that follow it, with nothing in between. -/
def CounterStep.atOnce (capacity : Nat) (s : ImportState) : CounterStep → ImportState
  | report label => s.snapshot capacity label
  | c => { s with counters := s.counters.after [c] }

/-- An action is what it does apart from its counting, and then its counting at once. -/
theorem ImportState.Move.counted {keys : FingerprintKeys} {settings : ImportSettings} {s t : ImportState}
    {a : ImportAction} (h : Move keys settings s a t) :
    (s.counting keys a).foldl (CounterStep.atOnce settings.progressCapacity) (t.recount s.counters s.snapshots) =
      t := by
  cases h with
  | accept hd hg =>
    rw [counting_of_ok hd hg]
    rfl
  | reject hd hg =>
    rw [counting_of_error hd hg, recount_snapshot]
    rfl
  | @report j w outcome label last hw hphase =>
    rw [counting_of_outcome hw hphase, recount_snapshot]
    cases outcome <;> rfl
  | finish hclosed =>
    rw [ImportState.finish, recount_snapshot]
    rfl
  | _ => rfl

namespace CountingState
variable {keys : FingerprintKeys} {settings : ImportSettings} {s t u : CountingState}

theorem perform_append {xs ys : List CountingAction} (hs : s.perform keys settings xs = some t)
    (ht : t.perform keys settings ys = some u) : s.perform keys settings (xs ++ ys) = some u := by
  induction xs generalizing s with
  | nil =>
    cases hs
    exact ht
  | cons a xs ih =>
    obtain ⟨v, hv, hs⟩ := Option.bind_eq_some_iff.mp hs
    exact Option.bind_eq_some_iff.mpr ⟨v, hv, ih hs⟩

theorem perform_count {k : Nat} {w : Worker} {c : CounterStep} {rest : List CounterStep}
    (htask : s.tasks[k]? = some (w, c :: rest)) : s.perform keys settings [.count k] =
      some { (c.run settings.progressCapacity s).1 with
        tasks := s.tasks.set k (w, (c.run settings.progressCapacity s).2.toList ++ rest) } := by
  simp only [perform, step, htask, Option.bind_some]

theorem perform_step {k : Nat} {w : Worker} {c : CounterStep} {rest : List CounterStep} (hfresh : c.Fresh)
    (htask : s.tasks[k]? = some (w, c :: rest)) :
    ∃ counts t, s.perform keys settings counts = some t ∧
      t.pipeline = c.atOnce settings.progressCapacity s.pipeline ∧ t.tasks = s.tasks.set k (w, rest) := by
  have hk := (List.getElem?_eq_some_iff.mp htask).1
  cases c with
  | report label =>
    -- A snapshot is three steps: it is begun, made and sent.
    let p : Snapshot := ⟨s.pipeline.counters.imported, s.pipeline.counters.failed, label⟩
    have hbegin : s.perform keys settings [.count k] =
        some { s with tasks := s.tasks.set k (w, .complete p.imported label :: rest) } := perform_count htask
    have hmake : perform keys settings { s with tasks := s.tasks.set k (w, .complete p.imported label :: rest) }
        [.count k] = some { s with made := p :: s.made, tasks := s.tasks.set k (w, .send p :: rest) } := by
      rw [perform_count (List.getElem?_set_self hk), List.set_set]
      rfl
    have hsend : perform keys settings { s with made := p :: s.made, tasks := s.tasks.set k (w, .send p :: rest) }
        [.count k] = some ⟨s.pipeline.snapshot settings.progressCapacity label, p :: s.made,
          s.tasks.set k (w, rest)⟩ := by
      rw [perform_count (List.getElem?_set_self hk), List.set_set, CounterStep.run, ImportState.snapshot]
      split <;> rfl
    exact ⟨_, _, perform_append hbegin (perform_append hmake hsend), rfl, rfl⟩
  | complete n label => exact absurd hfresh id
  | send p => exact absurd hfresh id
  | addImported n => exact ⟨[.count k], _, perform_count htask, rfl, rfl⟩
  | addFailed n => exact ⟨[.count k], _, perform_count htask, rfl, rfl⟩
  | addDiscarded n => exact ⟨[.count k], _, perform_count htask, rfl, rfl⟩

/-- One after the other, with nothing in between, the steps of a counting do what they do at once. -/
theorem perform_counting {k : Nat} {w : Worker} {steps : List CounterStep} (hfresh : ∀ c ∈ steps, c.Fresh)
    (htask : s.tasks[k]? = some (w, steps)) :
    ∃ counts t, s.perform keys settings counts = some t ∧
      t.pipeline = steps.foldl (CounterStep.atOnce settings.progressCapacity) s.pipeline ∧
      t.tasks = s.tasks.set k (w, []) := by
  induction steps generalizing s with
  | nil =>
    obtain ⟨hk, htask⟩ := List.getElem?_eq_some_iff.mp htask
    exact ⟨[], s, rfl, rfl, by rw [← htask, List.set_getElem_self]⟩
  | cons c rest ih =>
    rw [List.forall_mem_cons] at hfresh
    have hk := (List.getElem?_eq_some_iff.mp htask).1
    obtain ⟨first, u, hu, hupipeline, hutasks⟩ := perform_step hfresh.1 htask
    obtain ⟨counts, t, ht, hpipeline, htasks⟩ := ih hfresh.2 (hutasks ▸ List.getElem?_set_self hk)
    refine ⟨first ++ counts, t, perform_append hu ht, ?_, ?_⟩
    · rw [hpipeline, hupipeline, List.foldl_cons]
    · rw [htasks, hutasks, List.set_set]

theorem isFree_of_left (h : s.left = []) (a : ImportAction) : s.isFree a = true := by
  have hdone : ∀ task ∈ s.tasks, task.2 = [] := List.flatMap_eq_nil_iff.mp h
  have hnobody (w : Worker) : s.isCounting w = false := by
    refine List.any_eq_false.mpr fun task htask => ?_
    simp [hdone task htask]
  cases a with
  | drain =>
    refine List.all_eq_true.mpr fun task htask => ?_
    simp [hdone task htask]
  | _ => exact congrArg (! ·) (hnobody _)

/-- Every run of an import that counts at once is one in which no other worker comes between an action and its
    counting. -/
theorem perform_atOnce {actions : List ImportAction} {next : ImportState} (hleft : s.left = [])
    (h : s.pipeline.perform keys settings actions = some next) :
    ∃ counted t, s.perform keys settings counted = some t ∧ t.pipeline = next ∧ t.left = [] := by
  induction actions generalizing s with
  | nil =>
    cases h
    exact ⟨[], s, rfl, rfl, hleft⟩
  | cons a actions ih =>
    obtain ⟨u, hmove, hu, hrest⟩ := ImportState.perform_cons h
    let acted : CountingState := ⟨u.recount s.pipeline.counters s.pipeline.snapshots, s.made,
      s.tasks ++ [(a.worker, s.pipeline.counting keys a)]⟩
    have hact : s.perform keys settings [.act a] = some acted := by
      simp only [perform, step, isFree_of_left hleft a, hu, Option.map_some, if_true]
      rfl
    obtain ⟨counts, v, hv, hpipeline, htasks⟩ := acted.perform_counting (s.pipeline.counting_fresh keys a)
      List.getElem?_concat_length
    have hset : v.tasks = s.tasks ++ [(a.worker, [])] := by
      rw [htasks, List.set_append_right _ _ (Nat.le_refl _), Nat.sub_self, List.set_cons_zero]
    have hleft' : v.left = [] := by
      rw [left, hset, List.flatMap_append, List.flatMap_singleton, List.append_nil]
      exact hleft
    rw [hmove.counted] at hpipeline
    obtain ⟨counted, t, ht, hnext, hnone⟩ := ih hleft' (hpipeline ▸ hrest)
    exact ⟨_, t, perform_append hact (perform_append hv ht), hnext, hnone⟩

end CountingState

namespace CountingState
variable {keys : FingerprintKeys} {settings : ImportSettings} {s t : CountingState}

/-! ### What is counted is committed -/

/-- Some writer has committed a batch and is yet to count its games. -/
def Uncounted (s : CountingState) : Prop :=
  (∃ w ∈ s.pipeline.writers, ∃ written refused label last,
    w.phase = .reporting (.committed written refused) label last) ∨ ∃ n, .addImported n ∈ s.left

/-- What the counters and all snapshots tell is covered by the number of games that were committed and by those that
    were taken from the input. -/
structure Covered (s : CountingState) (committed : Nat) : Prop where
  imported : s.pipeline.counters.imported ≤ committed
  caughtUp : ¬ s.Uncounted → s.pipeline.counters.imported = committed
  total : s.pipeline.counters.imported + s.pipeline.counters.failed + s.pipeline.counters.discarded ≤
    s.pipeline.taken.length
  made : ∀ p ∈ s.made, p.processed = p.imported + p.failed ∧ p.imported ≤ committed ∧
    p.processed ≤ s.pipeline.taken.length
  received : ∀ p ∈ s.pipeline.snapshots, p ∈ s.made

theorem settled_imported (h : ¬ s.Uncounted) :
    s.settled.imported + s.pipeline.pending (·.written) = s.pipeline.counters.imported := by
  obtain ⟨hphases, hleft⟩ := not_or.mp h
  have hsteps : (s.left.map CounterStep.imported).sum = 0 := by
    refine List.sum_eq_zero fun x hx => ?_
    obtain ⟨c, hc, rfl⟩ := List.mem_map.mp hx
    cases c with
    | addImported n => exact absurd ⟨n, hc⟩ hleft
    | _ => rfl
  have hpending : s.pipeline.pending (·.written) = 0 := by
    refine List.sum_eq_zero fun x hx => ?_
    obtain ⟨w, hw, rfl⟩ := List.mem_map.mp hx
    cases hphase : w.phase with
    | reporting outcome label last =>
      cases outcome with
      | committed written refused => exact absurd ⟨w, hw, written, refused, label, last, hphase⟩ hphases
      | failed size => rfl
    | _ => rfl
  rw [hpending, settled, ImportCounters.after, hsteps]
  rfl

end CountingState

theorem Store.Takes.games {s t : Store} {gs : List DecodedGame} (h : s.Takes gs t) :
    ∃ added, t.games = added ++ s.games ∧ added.length = gs.length := by
  induction h with
  | nil => exact ⟨[], rfl, rfl⟩
  | @cons s t u g gs id hg _ ih =>
    obtain ⟨added, hadded, hlength⟩ := ih
    obtain ⟨_, hentered, -⟩ := Store.insertGame_ok hg
    refine ⟨added ++ [g.stored id], ?_, by simp [hlength]⟩
    rw [hadded, hentered.games, List.append_assoc, List.singleton_append]

/-- The games that are counted in the end are all among those that were taken. -/
theorem ImportState.Ledger.total_le {keys : FingerprintKeys} {s initial : ImportState}
    {written refused : List DecodedGame} {lost : List (List DecodedGame)} {dropped : List DecodedGame}
    (h : Ledger keys s initial written refused lost dropped) :
    s.counters.imported + s.counters.failed + s.counters.discarded ≤ s.taken.length := by
  have hgames := congrArg Multiset.card h.games
  have htaken := @DecodedGame.accepted_add_rejected keys s.taken
  have himported := h.imported
  have hfailed := h.failed
  have hdiscarded := h.discarded
  simp only [Multiset.card_add, Multiset.coe_card] at hgames
  omega

namespace CountingState

/-- A snapshot never counts a game that could still be rolled back: whatever workers do between the steps of others,
    whenever the import is cancelled, and whichever transactions fail, no more games are counted as imported than have
    been committed, and just as many when no writer is about to count; and no counter ever decreases. -/
theorem counted_committed {keys : FingerprintKeys} {settings : ImportSettings} {archive : Archive}
    {games : List RawGame} {inputOpen : Bool} {actions more : List CountingAction} {s t : CountingState}
    (hs : (ofPipeline (.start settings archive games inputOpen)).perform keys settings actions = some s)
    (ht : s.perform keys settings more = some t) :
    (∃ committed, s.pipeline.archive.store.games = committed ++ archive.store.games ∧ s.Covered committed.length) ∧
      s.pipeline.counters.Le t.pipeline.counters := by
  have htruthful := perform_truthful rfl hs
  obtain ⟨received, hrun⟩ := perform_behind hs
  obtain ⟨written, refused, lost, dropped, hledger⟩ := hrun.ledger
  obtain ⟨committed, hgames, hlength⟩ := hledger.store.games
  have himported : s.settled.imported + s.pipeline.pending (·.written) = committed.length :=
    hledger.imported.trans hlength.symm
  have htotal : s.settled.imported + s.settled.failed + s.settled.discarded ≤ s.pipeline.taken.length :=
    hledger.total_le
  have hi : s.pipeline.counters.imported ≤ s.settled.imported := Nat.le_add_right _ _
  have hf : s.pipeline.counters.failed ≤ s.settled.failed := Nat.le_add_right _ _
  have hd : s.pipeline.counters.discarded ≤ s.settled.discarded := Nat.le_add_right _ _
  refine ⟨⟨committed, hgames, ?_, fun hnone => ?_, ?_, fun p hp => ?_, htruthful.received⟩, perform_counters_le ht⟩
  · omega
  · rw [← himported, settled_imported hnone]
  · omega
  · obtain ⟨hpi, hpf⟩ := htruthful.made p hp
    refine ⟨rfl, by omega, ?_⟩
    rw [Snapshot.processed]
    omega

/-- Two batches are committed while only one of them is counted, and a snapshot made in between tells of one. -/
theorem counted_committed_two_writers :
    ∃ s t, (ofPipeline (.start ⟨1, 2, 1, 1, 2, 8⟩ (.ofStore .empty) (.replicate 2 ⟨⟨[]⟩, [], none⟩) false)).perform
        ⟨.replicate keyCount 0⟩ ⟨1, 2, 1, 1, 2, 8⟩
        [.act (.take 0), .act (.decode 0), .act (.send 0), .act (.take 0), .act (.decode 0), .act (.send 0),
          .act (.receive 0), .act (.receive 1), .act (.commit 0 true), .act (.report 0), .count 9, .count 9, .count 9,
          .act (.commit 1 true), .count 9] = some s ∧
      s.perform ⟨.replicate keyCount 0⟩ ⟨1, 2, 1, 1, 2, 8⟩ [.act (.report 1), .count 11] = some t ∧
      s.pipeline.counters = ⟨1, 0, 0⟩ ∧ s.made = [⟨1, 0, "? vs ?"⟩] ∧ t.pipeline.counters = ⟨2, 0, 0⟩ ∧
      s.Covered 2 := by
  have hrun : ((ofPipeline (.start ⟨1, 2, 1, 1, 2, 8⟩ (.ofStore .empty) (.replicate 2 ⟨⟨[]⟩, [], none⟩) false)).perform
      ⟨.replicate keyCount 0⟩ ⟨1, 2, 1, 1, 2, 8⟩
      [.act (.take 0), .act (.decode 0), .act (.send 0), .act (.take 0), .act (.decode 0), .act (.send 0),
        .act (.receive 0), .act (.receive 1), .act (.commit 0 true), .act (.report 0), .count 9, .count 9, .count 9,
        .act (.commit 1 true), .count 9]).bind (fun s =>
        (s.perform ⟨.replicate keyCount 0⟩ ⟨1, 2, 1, 1, 2, 8⟩ [.act (.report 1), .count 11]).map fun t =>
          (s.pipeline.counters, s.made, s.pipeline.archive.store.games.length, t.pipeline.counters)) =
        some (⟨1, 0, 0⟩, [⟨1, 0, "? vs ?"⟩], 2, ⟨2, 0, 0⟩) := by
    decide +kernel
  obtain ⟨s, hs, hrest⟩ := Option.bind_eq_some_iff.mp hrun
  obtain ⟨t, ht, heq⟩ := Option.map_eq_some_iff.mp hrest
  simp only [Prod.mk.injEq] at heq
  obtain ⟨hcounters, hmade, hlength, hlater⟩ := heq
  obtain ⟨⟨committed, hgames, hcovered⟩, -⟩ := counted_committed hs ht
  have htwo : committed.length = 2 := by
    rw [← hlength, hgames]
    exact congrArg List.length (List.append_nil committed).symm
  exact ⟨s, t, hs, ht, hcounters, hmade, hlater, htwo ▸ hcovered⟩

end CountingState
end ChessArchive
