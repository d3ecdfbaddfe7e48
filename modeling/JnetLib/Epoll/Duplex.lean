import JnetLib.Epoll.CarefulCopies

/-!
# Both directions of one socket

`inStep_of_careful` says which old copies of the mask do no harm: those that are followed by another
one in time. Every other one can be continued to a socket that waits for nothing, or to an event
without an operation.

* One direction: `Wired` is kept by every step that installs its copy carefully, and it gives
  `InStep`.
* The other: where an old copy is installed without another to follow, the kernel has forgotten a
  bit (`Forgotten`) or knows one too many. In the first case the calls under way are followed to
  their end, one after the other, until nobody is left to correct the mask; in the second the kernel
  reports a direction that waits for nothing, and at the second time at the latest the event finds
  its slot empty (`Wired.exists_not_inStep`).

Each direction of the socket has its slot, its bit and its event; only the mask as a whole is
copied, so a call for one direction can undo what a call for the other has done. So do the two runs
with which the module ends.
-/

namespace JnetLib.Epoll

namespace Duplex

variable {α ω : Type*} [DecidableEq α]
variable {s s' : Duplex α ω} {a b : α} {d e : Dir} {c : Arming} {x : Option ω} {l : List Dir}
  {m : Dir → Bool}

/-! ### What another old copy leads to -/

/-- The kernel does not know of a bit that is set, and nobody is on the way with it. -/
structure Forgotten (s : Duplex α ω) (d : Dir) : Prop where
  slot : s.slots d ≠ none
  mask : s.mask d
  interest : ¬s.interest d
  calls : ∀ a, ¬(s.calls a).Brings d
  demux : ¬s.demux.Brings d

theorem Forgotten.stepCall (h : Forgotten s d) (ha : s.calls a ≠ .idle) :
    ∃ m, s.stepCall a = some ((s.install m).goCall a .idle) ∧
      Forgotten ((s.install m).goCall a .idle) d := by
  have hbrings := h.calls a
  match hc : s.calls a with
  | .idle => exact absurd hc ha
  | .stored e | .marked e =>
    rw [hc] at hbrings
    exact absurd trivial hbrings
  | .copied e m =>
    rw [hc] at hbrings
    refine ⟨m, by rw [Duplex.stepCall, hc], h.slot, h.mask, hbrings, fun b ↦ ?_, h.demux⟩
    rcases eq_or_ne b a with rfl | hba
    · rw [calls_goCall_self]
      exact id
    · rw [calls_goCall_of_ne _ _ hba]
      exact h.calls b

/-- The calls return one after the other, and the operation is not waited for. -/
theorem Forgotten.exists_of_forall_mem (T : Finset α) (h : Forgotten s d)
    (hT : ∀ a, s.calls a ≠ .idle → a ∈ T) (hp : ¬s.demux.Clearing) :
    ∃ k t, Transition.run Duplex.step s k = some t ∧ ¬InStep t := by
  induction T using Finset.induction_on generalizing s with
  | empty =>
    refine ⟨[], s, rfl, fun hin ↦ h.interest (hin.armed (fun a ↦ ?_) hp d h.slot).2⟩
    by_contra ha
    exact absurd (hT a ha) (Finset.notMem_empty a)
  | insert a T _ ih =>
    by_cases ha : s.calls a = .idle
    · refine ih h (fun b hb ↦ (Finset.mem_insert.1 (hT b hb)).resolve_left ?_) hp
      rintro rfl
      exact hb ha
    · obtain ⟨m, hs, hforgotten⟩ := h.stepCall ha
      have hrest : ∀ b, ((s.install m).goCall a .idle).calls b ≠ .idle → b ∈ T := by
        intro b hb
        have hba : b ≠ a := by
          rintro rfl
          exact hb (calls_goCall_self ..)
        rw [calls_goCall_of_ne _ _ hba] at hb
        exact (Finset.mem_insert.1 (hT b hb)).resolve_left hba
      obtain ⟨k, t, hrun, ht⟩ := ih hforgotten hrest hp
      have hcall : Duplex.step s (.call a) = some ((s.install m).goCall a .idle) := hs
      exact ⟨.call a :: k, t, (Transition.run_cons_of_eq hcall k).trans hrun, ht⟩

theorem Forgotten.exists_not_inStep (h : Forgotten s d)
    (hfin : {a | s.calls a ≠ .idle}.Finite) :
    ∃ k t, Transition.run Duplex.step s k = some t ∧ ¬InStep t := by
  have hT : ∀ a, s.calls a ≠ .idle → a ∈ hfin.toFinset := fun a ha ↦ hfin.mem_toFinset.2 ha
  by_cases hp : s.demux.Clearing
  · -- the demultiplexing thread has an old copy too, and installs it first
    have hbrings := h.demux
    match hd : s.demux with
    | .waiting | .events _ | .posting _ _ _ =>
      rw [hd] at hp
      exact hp.elim
    | .taken _ _ _ | .cleared _ _ _ =>
      rw [hd] at hbrings
      exact absurd trivial hbrings
    | .copied e m x l =>
      rw [hd] at hbrings
      have hs : Duplex.step s .demux = some ((s.install m).goDemux (.posting e x l)) := by
        rw [Duplex.step, stepDemux, hd]
      have hforgotten : Forgotten ((s.install m).goDemux (.posting e x l)) d :=
        ⟨h.slot, h.mask, hbrings, h.calls, id⟩
      obtain ⟨k, t, hrun, ht⟩ := hforgotten.exists_of_forall_mem hfin.toFinset hT id
      exact ⟨.demux :: k, t, (Transition.run_cons_of_eq hs k).trans hrun, ht⟩
  · exact h.exists_of_forall_mem _ hT hp

/-- An event for a bit that is clear finds its slot empty, at the second time at the latest. -/
theorem exists_not_inStep_of_waiting (hi : s.interest d) (hm : ¬s.mask d)
    (hp : s.demux = .waiting) :
    ∃ k t, Transition.run Duplex.step s k = some t ∧ ¬InStep t := by
  by_cases hslot : s.slots d = none
  · exact ⟨[], s, rfl, fun hin ↦ hin.delivered hp d hi hslot⟩
  · have hm' : s.mask d = false := by simpa using hm
    have hsub : [d].Sublist [.input, .output] := by cases d <;> decide
    refine ⟨[.deliver [d], .demux, .demux, .demux, .demux], (s.setOp d none).goDemux .waiting,
      ?_, fun hin ↦ hin.delivered rfl d hi (slots_setOp_self ..)⟩
    have hdeliver : Duplex.step s (.deliver [d]) = some (s.goDemux (.events [d])) := by
      rw [Duplex.step, hp]
      exact if_pos ⟨hsub, by simpa using hi⟩
    rw [Transition.run_cons_of_eq hdeliver]
    simp [Transition.run, Duplex.step, stepDemux, goDemux, setOp, hm']

theorem exists_not_inStep_of_not_installs (hi : s.interest d) (hm : ¬s.mask d)
    (hp : ¬s.demux.Installs) :
    ∃ k t, Transition.run Duplex.step s k = some t ∧ ¬InStep t := by
  -- the thread comes back to `epoll_wait` without telling the kernel anything
  obtain ⟨k, hk⟩ : ∃ k, Transition.run Duplex.step s k = some (s.goDemux .waiting) := by
    rcases hd : s.demux with _ | l | _ | _ | _ | ⟨e, x, l⟩
    case waiting => exact ⟨[], by rw [Transition.run_nil, ← hd]; rfl⟩
    case events =>
      obtain rfl : l = [] := by
        by_contra hl
        exact hp (.inr (by rw [hd]; exact hl))
      exact ⟨[.demux], by simp [Transition.run, Duplex.step, stepDemux, hd]⟩
    case posting =>
      obtain rfl : l = [] := by
        by_contra hl
        exact hp (.inr (by rw [hd]; exact hl))
      exact ⟨[.demux, .demux], by simp [Transition.run, Duplex.step, stepDemux, goDemux, hd]⟩
    all_goals exact absurd (.inl (by rw [hd]; trivial)) hp
  obtain ⟨k', t, hrun, ht⟩ := exists_not_inStep_of_waiting (s := s.goDemux .waiting) hi hm rfl
  exact ⟨k ++ k', t, (Transition.run_append_of_eq hk k').trans hrun, ht⟩

/-- **Every other old copy does harm.** -/
theorem Wired.exists_not_inStep {ev : DuplexEvent α ω} (h : Wired s)
    (hbad : ¬InstallsCarefully s ev)
    (hs : Duplex.step s ev = some s') :
    ∃ k t, Transition.run Duplex.step s' k = some t ∧ ¬InStep t := by
  have hslot : ∀ {d}, s.mask d → ¬s.demux.Takes d → s.slots d ≠ none :=
    fun hm ht hn ↦ ht (h.emptying _ hn hm)
  cases ev with
  | start | deliver => exact absurd trivial hbad
  | call a =>
    cases ha : s.calls a with
    | idle | stored | marked =>
      rw [InstallsCarefully, ha] at hbad
      exact absurd trivial hbad
    | copied e m =>
      rw [Duplex.step, Duplex.stepCall, ha] at hs
      obtain rfl := Option.some.inj hs
      rw [InstallsCarefully, ha] at hbad
      rcases not_and_or.1 hbad with hbad | hbad
      · -- a bit is set that the old copy lacks, and no other thread brings it
        simp only [not_forall, not_or, not_exists, not_and] at hbad
        obtain ⟨d, hm, hmd, hcalls, hdemux⟩ := hbad
        have htakes : ¬s.demux.Takes d := by
          intro ht
          apply hdemux
          revert ht
          cases s.demux <;> simp [Demux.Takes, Demux.Brings]
        have hforgotten : Forgotten ((s.install m).goCall a .idle) d := by
          refine ⟨hslot hm htakes, hm, hmd, fun b ↦ ?_, hdemux⟩
          rcases eq_or_ne b a with rfl | hba
          · rw [calls_goCall_self]
            exact id
          · rw [calls_goCall_of_ne _ _ hba]
            exact hcalls b hba
        exact hforgotten.exists_not_inStep (finite_goCall (s := s.install m) h.finite a _)
      · simp only [not_forall] at hbad
        obtain ⟨d, hmd, hm, hinstalls⟩ := hbad
        exact exists_not_inStep_of_not_installs (s := (s.install m).goCall a .idle) hmd hm hinstalls
  | demux =>
    cases hp : s.demux with
    | waiting | events | taken | cleared | posting =>
      rw [InstallsCarefully, hp] at hbad
      exact absurd trivial hbad
    | copied e m x l =>
      rw [Duplex.step, Duplex.stepDemux, hp] at hs
      obtain rfl := Option.some.inj hs
      rw [InstallsCarefully, hp] at hbad
      simp only [DemuxMayInstall, not_forall, not_exists] at hbad
      obtain ⟨d, hm, hmd, hcalls⟩ := hbad
      have hforgotten : Forgotten ((s.install m).goDemux (.posting e x l)) d :=
        ⟨hslot hm (by rw [hp]; exact id), hm, hmd, hcalls, id⟩
      exact hforgotten.exists_not_inStep h.finite

/-! ### Which runs stay in step -/

/-- **The masks and the slots stay in step** along every run in which no old copy of the mask is
installed without another one to follow in time; and once such a copy has been installed at the end
of a run, the run can be continued to a state that is out of step. -/
theorem inStep_of_careful (l : List (DuplexEvent α ω)) :
    (Transition.RunMeets step InstallsCarefully start l →
      Transition.Throughout step InStep start l) ∧
      ∀ s ev s', Transition.RunMeets step InstallsCarefully start l →
        Transition.run step start l = some s → step s ev = some s' → ¬InstallsCarefully s ev →
        ∃ k t, Transition.run step s' k = some t ∧ ¬InStep t := by
  refine ⟨fun hl ↦ ?_, fun s ev s' hl hrun hs hbad ↦ ?_⟩
  · exact hl.throughout (fun _ h ↦ h.inStep) (fun _ _ _ h hok hs ↦ h.step hok hs) wired_start
  · have hwired : Wired s := Transition.invariant_run (fun _ _ _ h hok hs ↦ h.step hok hs)
      wired_start hl hrun
    exact hwired.exists_not_inStep hbad hs

/-- A send is waiting for its event. -/
def sending : List (DuplexEvent Unit ℕ) := [.start () .output 1, .call (), .call (), .call ()]

/-- The event of a send is handled while a receive is started, and both change the mask before
either copies it. -/
theorem inStep_of_careful_sending :
    Transition.Throughout step InStep start (sending ++ [.deliver [.output], .start () .input 2,
      .demux, .call (), .demux, .demux, .call (), .demux, .call ()]) :=
  (inStep_of_careful _).1 (by decide)

/-- The event of the send is handled up to the copy of the mask; a receive is started from beginning
to end; then the copy is installed, and the kernel forgets the receive. -/
def forgetting : List (DuplexEvent Unit ℕ) :=
  sending ++ [.deliver [.output], .demux, .demux, .demux, .start () .input 2, .call (), .call (),
    .call (), .demux]

/-- A receive is started up to the copy of the mask; the event of the send is handled from beginning
to end; then the copy is installed, and the kernel reports the send once more. -/
def reporting : List (DuplexEvent Unit ℕ) :=
  sending ++ [.start () .input 2, .call (), .call (), .deliver [.output], .demux, .demux, .demux,
    .demux, .demux, .demux, .call (), .deliver [.output], .demux]

/-- Either of the two can install an old copy: a receive that nobody waits for, and a null pointer
taken out of a slot. -/
theorem not_inStep_old_copy :
    (∃ t, Transition.run step start forgetting = some t ∧ ¬InStep t) ∧
      ∃ t, Transition.run step start reporting = some t ∧ ¬InStep t := by
  refine ⟨⟨_, rfl, fun h ↦ ?_⟩, ⟨_, rfl, fun h ↦ ?_⟩⟩
  · have := h.armed (fun _ ↦ rfl) id .input (by decide)
    exact absurd this.2 (by decide)
  · exact h.taken .output none [] rfl rfl

end Duplex

end JnetLib.Epoll
