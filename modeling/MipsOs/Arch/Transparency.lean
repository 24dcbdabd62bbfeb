import MipsOs.Arch.Switch

/-!
# What a task sees of the others

A task finds its registers as it has left them.  `do_scheduler_transparent` says so for
the kernel code that calls `do_scheduler`, and `exception_transparent` for the program
that is interrupted, over any number of tasks and every order of steps.
-/

namespace MipsOs.Arch

open MipsOs.Lib Reg

/-- The stack pointers of the PCBs are different doublewords. -/
structure Symbols.Ok {T : Type} (y : Symbols T) : Prop where
  pcb : ∀ t, Aligned (y.pcb t)
  currentRunning : Aligned y.currentRunning
  currentPid : Aligned y.currentPid
  word : Function.Injective y.word

namespace System

variable {T : Type} [DecidableEq T] {y : Symbols T}

/-! ## What is saved -/

/-- The memory has what the tasks have saved, and the frames are apart from the stack
pointers of the PCBs. -/
structure SavedOk (y : Symbols T) (m : Word → Word) (saved : T × Kind → Option Saved) : Prop where
  records : Records m (records y saved)
  kernelSp : ∀ t x, saved (t, .kernel) = some x → x.sp = x.base
  addr : ∀ i x, saved i = some x → KernelAddr x.base 0
  outside : ∀ i x a, saved i = some x → a ∈ framePlaces x.base → ∀ j, a ≠ y.word j

section SavedOk

variable {m m' : Word → Word} {saved : T × Kind → Option Saved} {i j : T × Kind} {x : Saved}
  {a : Word}

omit [DecidableEq T] in
@[simp] theorem places_record : Record.places (record y i x) = y.word i :: framePlaces x.base := by
  rw [record, Record.places, List.map_cons]
  exact congrArg _ (places_frame x.base x.ctx)

omit [DecidableEq T] in
theorem records_some (h : saved i = some x) : records y saved i = record y i x := by
  rw [records, h]
  rfl

theorem records_update (saved : T × Kind → Option Saved) (i : T × Kind) (o : Option Saved) :
    records y (Function.update saved i o) =
      Function.update (records y saved) i (o.elim [] (record y i)) := by
  funext j
  by_cases hj : j = i
  · subst hj
    rw [records, Function.update_self, Function.update_self]
  · rw [records, Function.update_of_ne hj, Function.update_of_ne hj]
    rfl

omit [DecidableEq T] in
theorem SavedOk.word_eq (h : SavedOk y m saved) (hx : saved i = some x) : m (y.word i) = x.sp := by
  have hin := h.records.holds i
  rw [records_some hx] at hin
  exact hin _ List.mem_cons_self

omit [DecidableEq T] in
theorem SavedOk.frame (h : SavedOk y m saved) (hx : saved i = some x) :
    Record.In m (Arch.frame x.base x.ctx) := by
  have hin := h.records.holds i
  rw [records_some hx] at hin
  exact fun p hp => hin p (List.mem_cons_of_mem _ hp)

omit [DecidableEq T] in
/-- The stack pointer of one task is not in what another one has saved. -/
theorem SavedOk.word_free (h : SavedOk y m saved) (hy : y.Ok) (i : T × Kind) :
    ¬ Records.Beside (System.records y saved) i (y.word i) := by
  intro ⟨j, hne, hj⟩
  cases hx : saved j with
  | none =>
    rw [System.records, hx] at hj
    cases hj
  | some x =>
    rw [records_some hx, places_record, List.mem_cons] at hj
    rcases hj with hword | hframe
    · exact hne (hy.word hword).symm
    · exact h.outside j x _ hx hframe i rfl

omit [DecidableEq T] in
/-- Code that keeps what is saved. -/
theorem SavedOk.congr (h : SavedOk y m saved)
    (heq : ∀ a, Records.Taken (System.records y saved) a → m' a = m a) : SavedOk y m' saved :=
  ⟨h.records.congr heq, h.kernelSp, h.addr, h.outside⟩

/-- A task saves other registers, in places of its own. -/
theorem SavedOk.set (h : SavedOk y m saved) (hy : y.Ok) (hkernel : i.2 = .kernel → x.sp = x.base)
    (haddr : KernelAddr x.base 0)
    (hfree : ∀ a ∈ framePlaces x.base, ¬ Records.Beside (System.records y saved) i a ∧
      ∀ j, a ≠ y.word j)
    (hin : Record.In m' (record y i x))
    (hother : ∀ a, Records.Beside (System.records y saved) i a → m' a = m a) :
    SavedOk y m' (Function.update saved i (some x)) := by
  have hcases : ∀ {j z}, Function.update saved i (some x) j = some z →
      (j = i ∧ z = x) ∨ saved j = some z := by
    intro j z hz
    by_cases hj : j = i
    · subst hj
      rw [Function.update_self] at hz
      exact .inl ⟨rfl, (Option.some.inj hz).symm⟩
    · rw [Function.update_of_ne hj] at hz
      exact .inr hz
  constructor
  · rw [records_update]
    refine h.records.set hin (fun a ha => ?_) hother
    change a ∈ Record.places (record y i x) at ha
    rw [places_record, List.mem_cons] at ha
    rcases ha with rfl | ha
    · exact h.word_free hy i
    · exact (hfree a ha).1
  · intro t z hz
    rcases hcases hz with ⟨hi, rfl⟩ | hz
    · exact hkernel (congrArg Prod.snd hi).symm
    · exact h.kernelSp t z hz
  · intro j z hz
    rcases hcases hz with ⟨_, rfl⟩ | hz
    · exact haddr
    · exact h.addr j z hz
  · intro j z a hz ha
    rcases hcases hz with ⟨_, rfl⟩ | hz
    · exact (hfree a ha).2
    · exact h.outside j z a hz ha

/-- A task saves its registers. -/
theorem SavedOk.save (h : SavedOk y m saved) (hy : y.Ok) (hkernel : i.2 = .kernel → x.sp = x.base)
    (haddr : KernelAddr x.base 0)
    (hfree : ∀ a ∈ framePlaces x.base, ¬ Records.Beside (System.records y saved) i a ∧
      ∀ j, a ≠ y.word j) :
    SavedOk y (Record.writeAll m (record y i x)) (Function.update saved i (some x)) := by
  refine h.set hy hkernel haddr hfree (Record.in_writeAll ?_) fun a ha => ?_
  · rw [places_record]
    exact List.nodup_cons.mpr ⟨fun hin => (hfree _ hin).2 i rfl, nodup_framePlaces x.base⟩
  · apply Record.writeAll_of_notMem
    rw [places_record, List.mem_cons, not_or]
    refine ⟨?_, fun hin => (hfree a hin).1 ha⟩
    rintro rfl
    exact h.word_free hy i ha

/-- A task gives up what it has saved. -/
theorem SavedOk.clear (h : SavedOk y m saved) (i : T × Kind) :
    SavedOk y m (Function.update saved i none) := by
  have hold : ∀ {j z}, Function.update saved i none j = some z → saved j = some z := by
    intro j z hz
    by_cases hj : j = i
    · subst hj
      rw [Function.update_self] at hz
      cases hz
    · rwa [Function.update_of_ne hj] at hz
  constructor
  · rw [records_update]
    exact h.records.clear i
  · exact fun t z hz => h.kernelSp t z (hold hz)
  · exact fun j z hz => h.addr j z (hold hz)
  · exact fun j z a hz => h.outside j z a (hold hz)

omit [DecidableEq T] in
/-- A stack pointer that is not in use. -/
theorem SavedOk.not_taken (h : SavedOk y m saved) (hy : y.Ok) (hi : saved i = none) :
    ¬ Records.Taken (System.records y saved) (y.word i) := by
  intro ⟨j, hj⟩
  refine h.word_free hy i ⟨j, ?_, hj⟩
  rintro rfl
  rw [System.records, hi] at hj
  cases hj

end SavedOk

/-! ## The invariant -/

/-- `$k0` is the PCB of the running task, and the task has nothing saved that it uses. -/
structure Inv (y : Symbols T) (s : System T) : Prop where
  k0 : s.cpu.reg k0 = y.pcb s.cur
  saved : SavedOk y s.cpu.mem s.saved
  running : s.saved (s.cur, .kernel) = none
  userMode : s.inKernel = false → s.saved (s.cur, .user) = none

section Steps

variable {s s' : System T} {exited : Bool} {q : T} {c c₁ c₂ : Cpu} {x : Saved}

omit [DecidableEq T] in
theorem Inv.aligned (h : Inv y s) (hy : y.Ok) : Aligned (s.cpu.reg Reg.k0) := by
  rw [h.k0]
  exact hy.pcb s.cur

omit [DecidableEq T] in
/-- Where `$k0` points to. -/
theorem Inv.word (h : Inv y s) (k : Kind) : s.cpu.reg Reg.k0 + k.offset = y.word (s.cur, k) := by
  rw [h.k0]
  rfl

omit [DecidableEq T] in
/-- The frame below a stack pointer. -/
theorem Room.addr_frame {i : T × Kind} {a : Word} (h : s.Room y i a) : KernelAddr (a - 312) 0 := by
  have hal := h.addr.aligned
  have hge := h.addr.ge
  have hsize : offsetSize.toNat = 312 := rfl
  unfold Aligned at hal
  constructor
  · unfold Aligned
    bv_omega
  · bv_omega

/-- The registers of the program are saved. -/
theorem Inv.enter (h : Inv y s) (hy : y.Ok) (hok : s.Sound y (.enter exited)) :
    ∃ c, s.cpu.run (exceptionHandlerEntry y) = some c ∧ c.reg Reg.k0 = s.cpu.reg Reg.k0 ∧
      c.reg Reg.sp = (s.trapSaved y).base ∧ c.reg a2 = sext (s.cpu.cp0 .cause) ∧
      SavedOk y c.mem (Function.update s.saved (s.cur, .user) (some (s.trapSaved y))) := by
  obtain ⟨_, hroom⟩ := hok
  have hbase : s.cpu.mem (s.cpu.reg Reg.k0 + Kind.kernel.offset) =
      s.cpu.mem (y.word (s.cur, .kernel)) := by rw [h.word]
  obtain ⟨c, hrun, hk0, hsp, ha2, hmem⟩ :=
    Cpu.run_exceptionHandlerEntry y (h.aligned hy) hbase hroom.addr
  have hwrite : c.mem = Record.writeAll s.cpu.mem (record y (s.cur, .user) (s.trapSaved y)) := by
    rw [hmem, h.word, record, Record.writeAll_cons, trapSaved]
  refine ⟨c, hrun, hk0, hsp, ha2, ?_⟩
  rw [hwrite]
  exact h.saved.save hy nofun hroom.addr_frame hroom.free

/-- The registers of the program come back. -/
theorem Inv.leave (h : Inv y s) (hy : y.Ok) (hx : s.saved (s.cur, .user) = some x)
    (hsp : s.cpu.reg Reg.sp = x.base) :
    ∃ c, s.cpu.run exceptionReturn = some c ∧ (∀ f ∈ savedFields, c.field f = x.ctx f) ∧
      c.reg Reg.sp = x.sp ∧ c.reg Reg.k0 = s.cpu.reg Reg.k0 ∧
      c.mem (y.word (s.cur, .kernel)) = x.base + 312 ∧
      SavedOk y c.mem (Function.update s.saved (s.cur, .user) none) := by
  obtain ⟨c, hrun, hfields, hspc, hk0, hmem⟩ := Cpu.run_exceptionReturn
    (hsp.symm ▸ h.saved.addr _ x hx) (h.aligned hy) (hsp.symm ▸ h.saved.frame hx)
  rw [h.word] at hspc hmem
  refine ⟨c, hrun, hfields, hspc.trans (h.saved.word_eq hx), hk0, ?_, ?_⟩
  · rw [hmem, Function.update_self, hsp]
  · refine (h.saved.congr fun a ha => ?_).clear _
    rw [hmem, Function.update_of_ne]
    rintro rfl
    exact h.saved.not_taken hy h.running ha

/-- A new program begins. -/
theorem Inv.startUp (h : Inv y s) (hy : y.Ok) (hok : s.Sound y .startUp) :
    ∃ c, s.cpu.run startUpReturn = some c ∧ c.reg Reg.k0 = s.cpu.reg Reg.k0 ∧
      c.mem (y.word (s.cur, .kernel)) = sext (s.cpu.reg Reg.sp + s.cpu.reg v0) + 312 ∧
      SavedOk y c.mem s.saved := by
  obtain ⟨_, _, hsp, hv0, haddr⟩ := hok
  obtain ⟨c, hrun, hk0, hmem⟩ := Cpu.run_startUpReturn hsp hv0 haddr (h.aligned hy)
  rw [h.word] at hmem
  refine ⟨c, hrun, hk0, by rw [hmem, Function.update_self], h.saved.congr fun a ha => ?_⟩
  rw [hmem, Function.update_of_ne]
  rintro rfl
  exact h.saved.not_taken hy h.running ha

/-- The registers of the kernel code are saved. -/
theorem Inv.suspend (h : Inv y s) (hy : y.Ok)
    (hroom : s.Room y (s.cur, .kernel) (s.cpu.reg Reg.sp)) :
    ∃ c, s.cpu.run doSchedulerSave = some c ∧ SavedOk y c.mem (s.suspended c).saved := by
  obtain ⟨c, hrun, hmem⟩ := Cpu.run_doSchedulerSave hroom.addr (h.aligned hy)
  have hapart : y.word (s.cur, .kernel) ∉
      Record.places (frame (s.cpu.reg Reg.sp - 312) s.cpu.context) := by
    rw [places_frame]
    exact fun hin => (hroom.free _ hin).2 _ rfl
  have hwrite : c.mem = Record.writeAll s.cpu.mem (record y (s.cur, .kernel) s.callSaved) := by
    rw [hmem, h.word, Record.writeAll_update hapart, record, Record.writeAll_cons, callSaved]
  refine ⟨c, hrun, ?_⟩
  rw [hwrite]
  exact h.saved.save hy (fun _ => rfl) hroom.addr_frame hroom.free

omit [DecidableEq T] in
/-- The middle part of `do_scheduler` makes the chosen task the one in `$k0`. -/
theorem run_doSchedulerLoad (hy : y.Ok) (c : Cpu) :
    ∃ d, c.run (doSchedulerLoad y) = some d ∧ d.reg Reg.k0 = c.mem y.currentRunning ∧
      d.mem = c.mem := by
  let c' := c.setReg Reg.k0 (c.mem y.currentPid)
  let e := c'.setCp0 .entryHi (c'.reg Reg.k0)
  have hpid : c.exec (.ldSym Reg.k0 y.currentPid) = some c' := if_pos hy.currentPid
  have hhi : c'.exec (.dmtc0 Reg.k0 .entryHi) = some e := rfl
  have hrunning : e.exec (.ldSym Reg.k0 y.currentRunning) =
      some (e.setReg Reg.k0 (e.mem y.currentRunning)) := if_pos hy.currentRunning
  refine ⟨e.setReg Reg.k0 (e.mem y.currentRunning), ?_, Cpu.setReg_self, rfl⟩
  rw [doSchedulerLoad, Cpu.run_cons_of hpid, Cpu.run_cons_of hhi, Cpu.run_cons_of hrunning,
    Cpu.run_nil]

theorem suspended_self : (s.suspended c).saved (s.cur, .kernel) = some s.callSaved :=
  Function.update_self ..

theorem suspended_of_ne (h : q ≠ s.cur) :
    (s.suspended c).saved (q, .kernel) = s.saved (q, .kernel) :=
  Function.update_of_ne (fun heq => h (congrArg Prod.fst heq)) _ _

/-- The chosen task has something to go on with. -/
theorem SwitchOk.chosen_saved (h : s.SwitchOk y q c₁ c₂) (c : Cpu) :
    ∃ x, (s.suspended c).saved (q, .kernel) = some x := by
  by_cases hq : q = s.cur
  · subst hq
    exact ⟨_, suspended_self⟩
  · obtain ⟨x, hx⟩ := Option.isSome_iff_exists.mp (h.suspended.resolve_left hq)
    exact ⟨x, (suspended_of_ne hq).trans hx⟩

/-- The chosen task goes on with the registers that it has saved. -/
theorem Inv.switch (h : Inv y s) (hy : y.Ok) (hok : s.SwitchOk y q c₁ c₂) :
    ∃ c d e x, s.cpu.run doSchedulerSave = some c ∧ c₁.run (doSchedulerLoad y) = some d ∧
      c₂.run doSchedulerRestore = some e ∧ (s.suspended c).saved (q, .kernel) = some x ∧
      (∀ f ∈ savedFields, e.field f = x.ctx f) ∧ e.reg Reg.sp = x.base + 312 ∧
      e.reg Reg.k0 = y.pcb q ∧
      SavedOk y e.mem (Function.update (s.suspended c).saved (q, .kernel) none) := by
  obtain ⟨c, hsave, hsaved⟩ := h.suspend hy hok.room
  obtain ⟨d, hload, hk0, hmem⟩ := run_doSchedulerLoad hy c₁
  obtain ⟨hkeeps, hk0'⟩ := hok.keeps' c d hsave hload
  obtain ⟨x, hx⟩ := hok.chosen_saved c
  have hsaved₁ : SavedOk y d.mem (s.suspended c).saved := by
    rw [hmem]
    exact hsaved.congr (hok.keeps c hsave)
  have hsaved₂ : SavedOk y c₂.mem (s.suspended c).saved := hsaved₁.congr hkeeps
  have hpcb : c₂.reg Reg.k0 = y.pcb q := by rw [hk0', hk0, hok.chosen]
  have hbase : c₂.mem (c₂.reg Reg.k0 + Kind.kernel.offset) = x.base := by
    rw [hpcb, ← hsaved₂.kernelSp q x hx]
    exact hsaved₂.word_eq hx
  obtain ⟨e, hrestore, hfields, hsp, hke, hme⟩ := Cpu.run_doSchedulerRestore
    (hsaved₂.addr _ x hx) (hpcb ▸ hy.pcb q) hbase (hsaved₂.frame hx)
  refine ⟨c, d, e, x, hsave, hload, hrestore, hx, hfields, hsp, hke.trans hpcb, ?_⟩
  rw [hme]
  exact hsaved₂.clear _

/-- The places of a frame by their fields. -/
theorem frame_place_inj {base : Word} {f g : Field} (hf : f ∈ savedFields) (hg : g ∈ savedFields)
    (h : base + f.offset = base + g.offset) : f = g := by
  have hnodup : (savedFields.map Field.offset).Nodup := by decide
  exact List.inj_on_of_nodup_map hnodup hf hg (add_left_cancel h)

/-- The answer of a system call goes to the frame of the program. -/
theorem Inv.answer (h : Inv y s) (hy : y.Ok) {v : Word} (hx : s.saved (s.cur, .user) = some x)
    {m : Word → Word} (hm : m = Function.update
      (Function.update s.cpu.mem (x.base + (Field.reg v0).offset) v) (x.base + Field.epc.offset)
        (s.cpu.mem (x.base + Field.epc.offset) + 4)) :
    SavedOk y m (Function.update s.saved (s.cur, .user)
      (some { x with ctx := answered v x.ctx })) := by
  have hplaces : ∀ a ∈ framePlaces x.base,
      a ∈ Record.places (records y s.saved (s.cur, .user)) := by
    intro a ha
    rw [records_some hx, places_record]
    exact List.mem_cons_of_mem _ ha
  have hv0 : Field.reg v0 ∈ savedFields := by decide
  have hepc : Field.epc ∈ savedFields := by decide
  have hmem : ∀ a ∉ framePlaces x.base, m a = s.cpu.mem a := by
    intro a ha
    rw [hm, Function.update_of_ne, Function.update_of_ne]
    · rintro rfl
      exact ha (List.mem_map_of_mem hv0)
    · rintro rfl
      exact ha (List.mem_map_of_mem hepc)
  refine h.saved.set hy nofun (h.saved.addr _ x hx) (fun a ha => ⟨?_, ?_⟩) (fun p hp => ?_)
    fun a ha => hmem a fun hin => h.saved.records.not_beside (hplaces a hin) ha
  · exact h.saved.records.not_beside (hplaces a ha)
  · exact h.saved.outside _ x a hx ha
  · rcases List.mem_cons.mp hp with rfl | hp
    · rw [hmem _ fun hin => h.saved.outside _ x _ hx hin _ rfl]
      exact h.saved.word_eq hx
    · obtain ⟨f, hf, rfl⟩ := List.mem_map.mp hp
      dsimp only
      have hfield := fun g (hg : g ∈ savedFields) => frame_field (h.saved.frame hx) hg
      by_cases hfe : f = .epc
      · subst hfe
        rw [hm, Function.update_self, hfield _ hepc, answered, Function.update_self]
      · have hne : x.base + f.offset ≠ x.base + Field.epc.offset :=
          fun heq => hfe (frame_place_inj hf hepc heq)
        rw [hm, Function.update_of_ne hne, answered, Function.update_of_ne hfe]
        by_cases hfv : f = .reg v0
        · subst hfv
          rw [Function.update_self, Function.update_self]
        · rw [Function.update_of_ne fun heq => hfv (frame_place_inj hf hv0 heq),
            Function.update_of_ne hfv, hfield f hf]

/-! ## One step -/

theorem step_enter (h : s.cpu.run (exceptionHandlerEntry y) = some c) :
    step y s (.enter exited) = some { s with
      cpu := c
      inKernel := true
      saved := Function.update s.saved (s.cur, .user) (some (s.trapSaved y))
      handler := Function.update s.handler s.cur (interruptHelper exited (c.reg a2))
      answer := Function.update s.answer s.cur none } := by
  rw [step, h]
  rfl

theorem step_answer {v : Word} (hx : s.saved (s.cur, .user) = some x) :
    step y s (.answer v) = some { s with
      cpu := (s.cpu.store (x.base + (Field.reg v0).offset) v).store (x.base + Field.epc.offset)
        (s.cpu.mem (x.base + Field.epc.offset) + 4)
      saved := Function.update s.saved (s.cur, .user) (some { x with ctx := answered v x.ctx })
      answer := Function.update s.answer s.cur (some v) } := by
  have hne : x.base + Field.epc.offset ≠ x.base + (Field.reg v0).offset :=
    fun heq => absurd (frame_place_inj (by decide) (by decide) heq) (by decide)
  have hload : (s.cpu.store (x.base + (Field.reg v0).offset) v).mem (x.base + Field.epc.offset) =
      s.cpu.mem (x.base + Field.epc.offset) := Function.update_of_ne hne _ _
  simp only [step, hx, hload, Option.bind_eq_bind, Option.bind_some, Option.pure_def]

theorem step_switch {d e : Cpu} (hsave : s.cpu.run doSchedulerSave = some c)
    (hload : c₁.run (doSchedulerLoad y) = some d) (hrestore : c₂.run doSchedulerRestore = some e) :
    step y s (.switch q c₁ c₂) = some { s.suspended c with
      cpu := e
      cur := q
      saved := Function.update (s.suspended c).saved (q, .kernel) none } := by
  simp only [step, hsave, hload, hrestore, Option.bind_eq_bind, Option.bind_some, Option.pure_def]

theorem step_leave (h : s.cpu.run exceptionReturn = some c) :
    step y s .leave = some { s with
      cpu := c
      inKernel := false
      saved := Function.update s.saved (s.cur, .user) none } := by
  rw [step, h]
  rfl

theorem step_startUp (h : s.cpu.run startUpReturn = some c) :
    step y s .startUp = some { s with cpu := c, inKernel := false } := by
  rw [step, h]
  rfl

/-- Every sound step can be taken, and keeps the invariant. -/
theorem Inv.exists_step (h : Inv y s) (hy : y.Ok) {op : Op T} (hok : s.Sound y op) :
    ∃ s', step y s op = some s' ∧ Inv y s' := by
  cases op with
  | user c =>
    obtain ⟨hmode, hk0, hmem⟩ := hok
    refine ⟨_, rfl, hk0.trans h.k0, ?_, h.running, h.userMode⟩
    dsimp only
    rw [hmem]
    exact h.saved
  | enter exited =>
    obtain ⟨c, hrun, hk0, _, _, hsaved⟩ := h.enter hy hok
    refine ⟨_, step_enter hrun, hk0.trans h.k0, hsaved, ?_, nofun⟩
    exact (Function.update_of_ne (by simp) _ _).trans h.running
  | code c =>
    obtain ⟨hmode, hk0, hkeeps⟩ := hok
    refine ⟨_, rfl, hk0.trans h.k0, h.saved.congr hkeeps, h.running, h.userMode⟩
  | answer v =>
    obtain ⟨hmode, hsome, _⟩ := hok
    obtain ⟨x, hx⟩ := Option.isSome_iff_exists.mp hsome
    refine ⟨_, step_answer hx, h.k0, h.answer hy hx rfl, ?_, ?_⟩
    · exact (Function.update_of_ne (by simp) _ _).trans h.running
    · intro huser
      rw [hmode] at huser
      cases huser
  | switch q c₁ c₂ =>
    obtain ⟨hmode, hok⟩ := hok
    obtain ⟨c, d, e, x, hsave, hload, hrestore, _, _, _, hk0, hsaved⟩ := h.switch hy hok
    refine ⟨_, step_switch hsave hload hrestore, hk0, hsaved, Function.update_self .., ?_⟩
    intro huser
    rw [suspended, hmode] at huser
    cases huser
  | leave =>
    obtain ⟨_, ⟨x, hx, hsp⟩, _⟩ := hok
    obtain ⟨c, hrun, _, _, hk0, _, hsaved⟩ := h.leave hy hx hsp
    refine ⟨_, step_leave hrun, hk0.trans h.k0, hsaved, ?_, fun _ => Function.update_self ..⟩
    exact (Function.update_of_ne (by simp) _ _).trans h.running
  | startUp =>
    obtain ⟨c, hrun, hk0, _, hsaved⟩ := h.startUp hy hok
    exact ⟨_, step_startUp hrun, hk0.trans h.k0, hsaved, h.running, fun _ => hok.2.1⟩
  | spawn t x c =>
    obtain ⟨hmode, hne, hnone, hsp, haddr, hfree, hin, hk0, hkeeps⟩ := hok
    refine ⟨_, rfl, hk0.trans h.k0, h.saved.set hy (fun _ => hsp) haddr hfree hin
      fun a ha => hkeeps a ha.taken, ?_, ?_⟩
    · exact (Function.update_of_ne (fun heq => hne (congrArg Prod.fst heq).symm) _
        _).trans h.running
    · intro huser
      rw [hmode] at huser
      cases huser
  | drop t =>
    have hother : ∀ k, Function.update (Function.update s.saved (t, .kernel) none) (t, .user) none
        (s.cur, k) = s.saved (s.cur, k) := by
      intro k
      have hcur : ∀ l, (s.cur, k) ≠ (t, l) := fun l heq => hok (congrArg Prod.fst heq).symm
      rw [Function.update_of_ne (hcur _), Function.update_of_ne (hcur _)]
    exact ⟨_, rfl, h.k0, (h.saved.clear _).clear _, (hother .kernel).trans h.running,
      fun huser => (hother .user).trans (h.userMode huser)⟩

/-- The step that a sound step is. -/
theorem Inv.of_step (h : Inv y s) (hy : y.Ok) {op : Op T} (hok : s.Sound y op)
    (hstep : step y s op = some s') : Inv y s' := by
  obtain ⟨s'', hs'', hinv⟩ := h.exists_step hy hok
  rw [hs''] at hstep
  exact Option.some.inj hstep ▸ hinv

end Steps

/-! ## What others do to what a task has saved -/

section Others

variable {s s' : System T} {t : T} {op : Op T} {x : Saved}

/-- The step lets a task go on that has called `do_scheduler`, or frees it. -/
def Resumes (t : T) : Op T → Prop
  | .switch q _ _ => q = t
  | .drop u => u = t
  | _ => False

/-- A task that waits in `do_scheduler` keeps its registers. -/
theorem Inv.waits (h : Inv y s) (hy : y.Ok) (hok : s.Sound y op) (hop : ¬ Resumes t op)
    (hx : s.saved (t, .kernel) = some x) (hstep : step y s op = some s') :
    s'.saved (t, .kernel) = some x := by
  have hcur : t ≠ s.cur := by
    rintro rfl
    rw [h.running] at hx
    cases hx
  have hkinds : ∀ u, (t, Kind.kernel) ≠ (u, Kind.user) := by simp
  have hother : ∀ u, u ≠ t → (t, Kind.kernel) ≠ (u, Kind.kernel) :=
    fun u hu heq => hu (congrArg Prod.fst heq).symm
  cases op with
  | user c =>
    obtain rfl := Option.some.inj hstep
    exact hx
  | enter exited =>
    obtain ⟨c, hrun, _⟩ := h.enter hy hok
    obtain rfl := Option.some.inj ((step_enter hrun).symm.trans hstep)
    exact (Function.update_of_ne (hkinds _) _ _).trans hx
  | code c =>
    obtain rfl := Option.some.inj hstep
    exact hx
  | answer v =>
    obtain ⟨z, hz⟩ := Option.isSome_iff_exists.mp hok.2.1
    obtain rfl := Option.some.inj ((step_answer hz).symm.trans hstep)
    exact (Function.update_of_ne (hkinds _) _ _).trans hx
  | switch q c₁ c₂ =>
    obtain ⟨c, d, e, _, hsave, hload, hrestore, _⟩ := h.switch hy hok.2
    obtain rfl := Option.some.inj ((step_switch hsave hload hrestore).symm.trans hstep)
    exact (Function.update_of_ne (hother q hop) _ _).trans
      ((Function.update_of_ne (hother _ hcur.symm) _ _).trans hx)
  | leave =>
    obtain ⟨_, ⟨z, hz, hsp⟩, _⟩ := hok
    obtain ⟨c, hrun, _⟩ := h.leave hy hz hsp
    obtain rfl := Option.some.inj ((step_leave hrun).symm.trans hstep)
    exact (Function.update_of_ne (hkinds _) _ _).trans hx
  | startUp =>
    obtain ⟨c, hrun, _⟩ := h.startUp hy hok
    obtain rfl := Option.some.inj ((step_startUp hrun).symm.trans hstep)
    exact hx
  | spawn u z c =>
    obtain rfl := Option.some.inj hstep
    have hu : u ≠ t := by
      rintro rfl
      rw [hok.2.2.1 .kernel] at hx
      cases hx
    exact (Function.update_of_ne (hother u hu) _ _).trans hx
  | drop u =>
    obtain rfl := Option.some.inj hstep
    exact (Function.update_of_ne (hkinds _) _ _).trans
      ((Function.update_of_ne (hother u hop) _ _).trans hx)

/-- The step takes the program of a task back to user mode, or frees the task. -/
def Returns (t : T) (s : System T) : Op T → Prop
  | .leave => s.cur = t
  | .drop u => u = t
  | _ => False

/-- The program of a task is interrupted: its registers at the exception, what
`interrupt_helper` does, and the answer of a system call. -/
structure Trapped (s : System T) (t : T) (base usp : Word) (x : Context) (hd : Handler) :
    Prop where
  saved : s.saved (t, .user) = some ⟨base, usp, (s.answer t).elim x fun v => answered v x⟩
  handler : s.handler t = hd
  syscall : (s.answer t).isSome → hd = .syscall

/-- The registers of an interrupted program are kept, up to the answer. -/
theorem Inv.stays_trapped (h : Inv y s) (hy : y.Ok) (hok : s.Sound y op) (hop : ¬ Returns t s op)
    {base usp : Word} {x : Context} {hd : Handler} (ht : s.Trapped t base usp x hd)
    (hstep : step y s op = some s') : s'.Trapped t base usp x hd := by
  have hkinds : ∀ u, (t, Kind.user) ≠ (u, Kind.kernel) := by simp
  have hother : ∀ u, u ≠ t → (t, Kind.user) ≠ (u, Kind.user) :=
    fun u hu heq => hu (congrArg Prod.fst heq).symm
  cases op with
  | user c =>
    obtain rfl := Option.some.inj hstep
    exact ⟨ht.saved, ht.handler, ht.syscall⟩
  | enter exited =>
    obtain ⟨c, hrun, _⟩ := h.enter hy hok
    obtain rfl := Option.some.inj ((step_enter hrun).symm.trans hstep)
    have hcur : s.cur ≠ t := by
      rintro rfl
      have hnone := h.userMode hok.1
      rw [ht.saved] at hnone
      cases hnone
    refine ⟨?_, ?_, ?_⟩ <;> dsimp only
    · rw [Function.update_of_ne (hother _ hcur), Function.update_of_ne hcur.symm, ht.saved]
    · rw [Function.update_of_ne hcur.symm, ht.handler]
    · rw [Function.update_of_ne hcur.symm]
      exact ht.syscall
  | code c =>
    obtain rfl := Option.some.inj hstep
    exact ⟨ht.saved, ht.handler, ht.syscall⟩
  | answer v =>
    obtain ⟨z, hz⟩ := Option.isSome_iff_exists.mp hok.2.1
    obtain rfl := Option.some.inj ((step_answer hz).symm.trans hstep)
    by_cases hcur : s.cur = t
    · subst hcur
      obtain ⟨_, _, hsys, hnone⟩ := hok
      have hold := ht.saved
      rw [hnone] at hold
      obtain rfl := Option.some.inj (hz.symm.trans hold)
      refine ⟨?_, ht.handler, fun _ => ht.handler.symm.trans hsys⟩
      dsimp only
      rw [Function.update_self, Function.update_self]
      rfl
    · refine ⟨?_, ht.handler, ?_⟩ <;> dsimp only
      · rw [Function.update_of_ne (hother _ hcur), Function.update_of_ne (Ne.symm hcur), ht.saved]
      · rw [Function.update_of_ne (Ne.symm hcur)]
        exact ht.syscall
  | switch q c₁ c₂ =>
    obtain ⟨c, d, e, _, hsave, hload, hrestore, _⟩ := h.switch hy hok.2
    obtain rfl := Option.some.inj ((step_switch hsave hload hrestore).symm.trans hstep)
    refine ⟨?_, ht.handler, ht.syscall⟩
    exact (Function.update_of_ne (hkinds _) _ _).trans
      ((Function.update_of_ne (hkinds _) _ _).trans ht.saved)
  | leave =>
    obtain ⟨_, ⟨z, hz, hsp⟩, _⟩ := hok
    obtain ⟨c, hrun, _⟩ := h.leave hy hz hsp
    obtain rfl := Option.some.inj ((step_leave hrun).symm.trans hstep)
    exact ⟨(Function.update_of_ne (hother _ hop) _ _).trans ht.saved, ht.handler, ht.syscall⟩
  | startUp =>
    obtain ⟨c, hrun, _⟩ := h.startUp hy hok
    obtain rfl := Option.some.inj ((step_startUp hrun).symm.trans hstep)
    exact ⟨ht.saved, ht.handler, ht.syscall⟩
  | spawn u z c =>
    obtain rfl := Option.some.inj hstep
    exact ⟨(Function.update_of_ne (hkinds _) _ _).trans ht.saved, ht.handler, ht.syscall⟩
  | drop u =>
    obtain rfl := Option.some.inj hstep
    exact ⟨(Function.update_of_ne (hother u hop) _ _).trans
      ((Function.update_of_ne (hkinds _) _ _).trans ht.saved), ht.handler, ht.syscall⟩

end Others

/-! ## The results -/

/-- The start of the kernel, in a task with nothing saved. -/
def boot (c : Cpu) (t : T) : System T where
  cpu := c
  cur := t
  inKernel := true
  saved _ := none
  handler _ := .other
  answer _ := none

omit [DecidableEq T] in
theorem inv_boot {c : Cpu} {t : T} (hk0 : c.reg k0 = y.pcb t) : Inv y (boot c t) :=
  ⟨hk0, ⟨⟨fun _ => Record.in_nil _, fun _ _ _ ha => nomatch ha⟩, nofun, nofun, nofun⟩, rfl, nofun⟩

theorem reaches_inv (hy : y.Ok) {c : Cpu} {t : T} (hk0 : c.reg k0 = y.pcb t) {s : System T}
    (h : Reaches (step y) (Sound y) (boot c t) s) : Inv y s :=
  h.invariant (Inv y) (inv_boot hk0) fun _ _ _ hinv hok hstep => hinv.of_step hy hok hstep

/-- The call of `do_scheduler` by `t`, which led to `s₁`, comes back in `s₃`: at once, or
when the task is chosen again. -/
inductive Back (y : Symbols T) (t : T) (s₁ : System T) : System T → Prop where
  | self (h : s₁.cur = t) : Back y t s₁ s₁
  | later {s₂ s₃ : System T} {d₁ d₂ : Cpu} (hne : s₁.cur ≠ t)
      (hrun : Reaches (step y) (fun u op => Sound y u op ∧ ¬ Resumes t op) s₁ s₂)
      (hok : Sound y s₂ (.switch t d₁ d₂)) (hback : step y s₂ (.switch t d₁ d₂) = some s₃) :
      Back y t s₁ s₃

/-- A task that is switched to has the registers of its frame. -/
theorem Inv.resumed {s s' : System T} (h : Inv y s) (hy : y.Ok) {q : T} {c₁ c₂ : Cpu}
    (hok : s.Sound y (.switch q c₁ c₂)) (hstep : step y s (.switch q c₁ c₂) = some s') :
    s'.cur = q ∧ s'.inKernel = true ∧
      s'.saved = Function.update (s.suspended s.cpu).saved (q, .kernel) none ∧
      ∃ x, (s.suspended s.cpu).saved (q, .kernel) = some x ∧
        (∀ f ∈ savedFields, s'.cpu.field f = x.ctx f) ∧ s'.cpu.reg sp = x.base + 312 := by
  obtain ⟨c, d, e, x, hsave, hload, hrestore, hx, hfields, hsp, _⟩ := h.switch hy hok.2
  obtain rfl := Option.some.inj ((step_switch hsave hload hrestore).symm.trans hstep)
  exact ⟨rfl, hok.1, rfl, x, hx, hfields, hsp⟩

/-- A task that is left for another one has its registers in a frame. -/
theorem suspended_of_switch {s s' : System T} {q : T} (hne : q ≠ s.cur)
    (hsaved : s'.saved = Function.update (s.suspended s.cpu).saved (q, .kernel) none) :
    s'.saved (s.cur, .kernel) = some s.callSaved := by
  have hplace : (s.cur, Kind.kernel) ≠ (q, Kind.kernel) := fun heq =>
    hne (congrArg Prod.fst heq).symm
  rw [hsaved, Function.update_of_ne hplace, suspended_self]

/-- A task that has called `do_scheduler` can be switched to. -/
theorem Inv.exists_switch {s : System T} (h : Inv y s) (hy : y.Ok) (hmode : s.inKernel = true)
    (hroom : s.Room y (s.cur, .kernel) (s.cpu.reg sp)) {q : T}
    (hq : q = s.cur ∨ (s.saved (q, .kernel)).isSome)
    (hglobal : ¬ Records.Taken (records y (s.suspended s.cpu).saved) y.currentRunning) :
    ∃ c₁ c₂ s', s.Sound y (.switch q c₁ c₂) ∧ step y s (.switch q c₁ c₂) = some s' := by
  obtain ⟨c, hsave, _⟩ := h.suspend hy hroom
  let c₁ := c.store y.currentRunning (y.pcb q)
  obtain ⟨d, hload, _⟩ := run_doSchedulerLoad hy c₁
  have hok : s.Sound y (.switch q c₁ d) := by
    refine ⟨hmode, hroom, fun c' hc' a ha => ?_, Function.update_self .., hq, fun c' d' _ hd' => ?_⟩
    · obtain rfl := Option.some.inj (hsave.symm.trans hc')
      refine Function.update_of_ne ?_ _ _
      rintro rfl
      exact hglobal ha
    · obtain rfl := Option.some.inj (hload.symm.trans hd')
      exact ⟨fun _ _ => rfl, rfl⟩
  obtain ⟨s', hs', _⟩ := h.exists_step hy hok
  exact ⟨c₁, d, s', hok, hs'⟩

/-- Whatever the other tasks do in between, a task comes back from `do_scheduler` with its
registers as they were at the call, but for `$k0` and `$k1`. -/
theorem do_scheduler_transparent (hy : y.Ok) {c : Cpu} {t : T} (hk0 : c.reg k0 = y.pcb t)
    {s s₁ s₃ : System T} (hreach : Reaches (step y) (Sound y) (boot c t) s) {q : T} {c₁ c₂ : Cpu}
    (hok : s.Sound y (.switch q c₁ c₂)) (hcall : step y s (.switch q c₁ c₂) = some s₁)
    (hback : Back y s.cur s₁ s₃) :
    s₃.cur = s.cur ∧ (∀ r, r ≠ zero → r ≠ k0 → r ≠ k1 → s₃.cpu.reg r = s.cpu.reg r) ∧
      s₃.cpu.hi = s.cpu.hi ∧ s₃.cpu.lo = s.cpu.lo ∧
      s₃.cpu.cp0 .status = sext (s.cpu.cp0 .status) ∧ s₃.cpu.cp0 .epc = sext (s.cpu.cp0 .epc) := by
  have hinv := reaches_inv hy hk0 hreach
  have hinv₁ := hinv.of_step hy hok hcall
  obtain ⟨hcur, _, hsaved, x, hx, hfields, hsp⟩ := hinv.resumed hy hok hcall
  have hframe : s₃.cur = s.cur ∧ (∀ f ∈ savedFields, s₃.cpu.field f = s.callSaved.ctx f) ∧
      s₃.cpu.reg sp = s.callSaved.base + 312 := by
    cases hback with
    | self h =>
      obtain rfl : q = s.cur := hcur.symm.trans h
      obtain rfl := Option.some.inj (suspended_self.symm.trans hx)
      exact ⟨h, hfields, hsp⟩
    | @later s₂ _ _ _ hne hrun hok' hback =>
      have hwait := hrun.invariant (fun u => Inv y u ∧ u.saved (s.cur, .kernel) = some s.callSaved)
        ⟨hinv₁, suspended_of_switch (fun hq => hne (hcur.trans hq)) hsaved⟩
        fun u op u' hu hop hstep =>
          ⟨hu.1.of_step hy hop.1 hstep, hu.1.waits hy hop.1 hop.2 hu.2 hstep⟩
      obtain ⟨hcur', _, _, z, hz, hfields', hsp'⟩ := hwait.1.resumed hy hok' hback
      have hother : s.cur ≠ s₂.cur := by
        intro heq
        have hwaits := hwait.2
        rw [heq, hwait.1.running] at hwaits
        cases hwaits
      obtain rfl := Option.some.inj ((hwait.2.symm.trans (suspended_of_ne hother).symm).trans hz)
      exact ⟨hcur', hfields', hsp'⟩
  obtain ⟨hcur₃, hfields₃, hsp₃⟩ := hframe
  refine ⟨hcur₃, fun r hz hk hk' => ?_, hfields₃ .hi (by decide), hfields₃ .lo (by decide),
    hfields₃ .status (by decide), hfields₃ .epc (by decide)⟩
  rcases saved_cases r with hr | hr | hr | hr | rfl
  · exact hfields₃ (.reg r) (reg_mem hr)
  · exact absurd hr hz
  · exact absurd hr hk
  · exact absurd hr hk'
  · rw [hsp₃, callSaved, BitVec.sub_add_cancel]

/-! ### Two tasks -/

/-- The PCBs and the globals of two tasks. -/
def twoTasks : Symbols Bool where
  pcb t := if t then 0xffffffffa0800400 else 0xffffffffa0800000
  currentRunning := 0xffffffffa0700000
  currentPid := 0xffffffffa0700008
  exceptionReturn := 0xffffffffa0801000
  interruptHelper := 0xffffffffa0802000

theorem twoTasks_word (i : Bool × Kind) : (twoTasks.word i).toNat =
    0xffffffffa0800000 + (if i.1 then 0x400 else 0) + (if i.2 = .kernel then 0 else 8) := by
  rcases i with ⟨_ | _, _ | _⟩ <;> decide

theorem twoTasks_ok : twoTasks.Ok := by
  refine ⟨by decide, by decide, by decide, ?_⟩
  rintro ⟨_ | _, _ | _⟩ ⟨_ | _, _ | _⟩ h <;> first | rfl | exact absurd h (by decide)

/-- A frame in the megabyte of the kernel stacks. -/
structure OnStack (base : Word) : Prop where
  ge : 0xffffffffa0e00000 ≤ base.toNat
  lt : base.toNat + offsetSize.toNat ≤ 0xffffffffa0f00000

/-- Frames on the stacks that are apart from the others. -/
theorem free_of_apart {s : System Bool} {i : Bool × Kind} {base : Word} (hbase : OnStack base)
    (hapart : ∀ j x, j ≠ i → s.saved j = some x → OnStack x.base ∧
      (x.base.toNat + offsetSize.toNat ≤ base.toNat ∨
        base.toNat + offsetSize.toNat ≤ x.base.toNat)) : s.Free twoTasks i base := by
  have hge := hbase.ge
  have hlt := hbase.lt
  have hword : ∀ a ∈ framePlaces base, ∀ j, a ≠ twoTasks.word j := by
    rintro a ha j rfl
    have hrange := framePlaces_range (by omega) ha
    have hj := twoTasks_word j
    split at hj <;> split at hj <;> omega
  refine fun a ha => ⟨fun ⟨j, hj, hin⟩ => ?_, hword a ha⟩
  cases hx : s.saved j with
  | none =>
    rw [records, hx] at hin
    cases hin
  | some x =>
    rw [records_some hx, places_record, List.mem_cons] at hin
    rcases hin with hin | hin
    · exact hword a ha j hin
    · obtain ⟨hstack, hsep⟩ := hapart j x hj hx
      have hlt' := hstack.lt
      have hrange := framePlaces_range (by omega) ha
      have hrange' := framePlaces_range (by omega) hin
      omega

/-- The globals are apart from the frames. -/
theorem running_free {saved : Bool × Kind → Option Saved}
    (h : ∀ i x, saved i = some x → OnStack x.base) :
    ¬ Records.Taken (records twoTasks saved) twoTasks.currentRunning := by
  intro ⟨i, hi⟩
  have hglobal : twoTasks.currentRunning.toNat = 0xffffffffa0700000 := rfl
  cases hx : saved i with
  | none =>
    rw [records, hx] at hi
    cases hi
  | some x =>
    rw [records_some hx, places_record, List.mem_cons] at hi
    rcases hi with hi | hi
    · have hword := twoTasks_word i
      rw [← hi, hglobal] at hword
      split at hword <;> split at hword <;> omega
    · have hge := (h i x hx).ge
      have hlt := (h i x hx).lt
      have hrange := framePlaces_range (by omega) hi
      omega

/-- The first task, with its stack. -/
def startCpu : Cpu where
  reg := Function.update (Function.update (Function.update (fun _ => 0) s0 7) sp 0xffffffffa0f00000)
    k0 (twoTasks.pcb false)
  hi := 0
  lo := 0
  cp0 _ := 0x8000
  mem _ := 0

/-- The kernel context of the second one. -/
def newTask : Saved where
  base := 0xffffffffa0e80000
  sp := 0xffffffffa0e80000
  ctx _ := 0

theorem newTask_onStack : OnStack newTask.base := ⟨by decide, by decide⟩

/-- Both tasks, while the first one runs. -/
def bothTasks (c : Cpu) : System Bool :=
  { boot c false with
    cpu := { c with mem := Record.writeAll c.mem (record twoTasks (true, .kernel) newTask) }
    saved := Function.update (fun _ => none) (true, .kernel) (some newTask) }

theorem bothTasks_reached (c : Cpu) :
    Reaches (step twoTasks) (Sound twoTasks) (boot c false) (bothTasks c) := by
  have hfree : (boot c false).Free twoTasks (true, .kernel) newTask.base :=
    free_of_apart newTask_onStack nofun
  have hnodup : (Record.places (record twoTasks (true, .kernel) newTask)).Nodup := by
    rw [places_record]
    exact List.nodup_cons.mpr ⟨fun hin => (hfree _ hin).2 _ rfl, nodup_framePlaces _⟩
  have hok : (boot c false).Sound twoTasks (.spawn true newTask (bothTasks c).cpu) :=
    ⟨rfl, Bool.noConfusion, fun _ => rfl, rfl, ⟨by decide, by decide⟩, hfree,
      Record.in_writeAll hnodup, rfl, fun _ ⟨_, ha⟩ => nomatch ha⟩
  exact (Reaches.refl _).snoc hok rfl

theorem bothTasks_saved {c : Cpu} {i : Bool × Kind} {x : Saved}
    (hx : (bothTasks c).saved i = some x) : i = (true, .kernel) ∧ x = newTask := by
  by_cases hi : i = (true, .kernel)
  · subst hi
    exact ⟨rfl, (Option.some.inj hx).symm⟩
  · have hsome : Function.update (fun _ => none) (true, .kernel) (some newTask) i = some x := hx
    rw [Function.update_of_ne hi] at hsome
    cases hsome

/-- The first task is in the kernel and the second one waits.  What is saved besides is
the program of the first task, above the frame of a call of `do_scheduler`. -/
structure CanSwitch (s : System Bool) : Prop where
  mode : s.inKernel = true
  cur : s.cur = false
  addr : KernelAddr (s.cpu.reg sp) offsetSize.toNat
  stack : OnStack s.callSaved.base
  above : newTask.base.toNat + offsetSize.toNat ≤ s.callSaved.base.toNat
  waits : s.saved (true, .kernel) = some newTask
  frames : ∀ i x, i ≠ (true, .kernel) → s.saved i = some x →
    OnStack x.base ∧ s.callSaved.base.toNat + offsetSize.toNat ≤ x.base.toNat

section CanSwitch

variable {s : System Bool}

/-- What is saved while the first task waits. -/
theorem CanSwitch.suspended (h : CanSwitch s) {i : Bool × Kind} {x : Saved}
    (hi : i ≠ (true, .kernel)) (hx : (s.suspended s.cpu).saved i = some x) :
    OnStack x.base ∧ newTask.base.toNat + offsetSize.toNat ≤ x.base.toNat := by
  by_cases hself : i = (s.cur, .kernel)
  · subst hself
    obtain rfl := Option.some.inj (suspended_self.symm.trans hx)
    exact ⟨h.stack, h.above⟩
  · obtain ⟨hstack, hle⟩ := h.frames i x hi ((Function.update_of_ne hself _ _).symm.trans hx)
    exact ⟨hstack, by have := h.above; omega⟩

theorem CanSwitch.waiting (h : CanSwitch s) :
    (s.suspended s.cpu).saved (true, .kernel) = some newTask := by
  have hne : ((true, Kind.kernel) : Bool × Kind) ≠ (s.cur, .kernel) := by
    rw [h.cur]
    decide
  exact (Function.update_of_ne hne _ _).trans h.waits

/-- The first task calls `do_scheduler`, the second one goes on and calls it in turn, and
the first one is chosen again. -/
theorem CanSwitch.there_and_back (h : CanSwitch s) (hinv : Inv twoTasks s) :
    ∃ c₁ c₂ s₁ d₁ d₂ s₂, s.Sound twoTasks (.switch true c₁ c₂) ∧
      step twoTasks s (.switch true c₁ c₂) = some s₁ ∧ s₁.cur = true ∧
      s₁.Sound twoTasks (.switch false d₁ d₂) ∧
      step twoTasks s₁ (.switch false d₁ d₂) = some s₂ ∧ s₂.cpu.reg sp = s.cpu.reg sp := by
  have hstacks : ∀ i x, (s.suspended s.cpu).saved i = some x → OnStack x.base := by
    intro i x hx
    by_cases hi : i = (true, .kernel)
    · subst hi
      obtain rfl := Option.some.inj (h.waiting.symm.trans hx)
      exact newTask_onStack
    · exact (h.suspended hi hx).1
  have hroom : s.Room twoTasks (s.cur, .kernel) (s.cpu.reg sp) := by
    refine ⟨h.addr, free_of_apart h.stack fun j x _ hx => ?_⟩
    by_cases hj : j = (true, .kernel)
    · subst hj
      obtain rfl := Option.some.inj (h.waits.symm.trans hx)
      exact ⟨newTask_onStack, .inl h.above⟩
    · obtain ⟨hstack, hle⟩ := h.frames j x hj hx
      exact ⟨hstack, .inr hle⟩
  obtain ⟨c₁, c₂, s₁, hok, hcall⟩ := hinv.exists_switch twoTasks_ok h.mode hroom (q := true)
    (.inr (by rw [h.waits]; rfl)) (running_free hstacks)
  have hinv₁ := hinv.of_step twoTasks_ok hok hcall
  obtain ⟨hcur, hmode, hsaved, x, hx, _, hsp⟩ := hinv.resumed twoTasks_ok hok hcall
  obtain rfl := Option.some.inj (h.waiting.symm.trans hx)
  have hbase : s₁.callSaved.base = newTask.base := by rw [callSaved, hsp, BitVec.add_sub_cancel]
  have hleft : ∀ j x, s₁.saved j = some x →
      OnStack x.base ∧ newTask.base.toNat + offsetSize.toNat ≤ x.base.toNat := by
    intro j x hx
    rw [hsaved] at hx
    by_cases hj : j = (true, .kernel)
    · rw [hj, Function.update_self] at hx
      cases hx
    · rw [Function.update_of_ne hj] at hx
      exact h.suspended hj hx
  have hroom₁ : s₁.Room twoTasks (s₁.cur, .kernel) (s₁.cpu.reg sp) := by
    rw [hsp]
    refine ⟨⟨by decide, by decide⟩, free_of_apart ⟨by decide, by decide⟩ fun j x _ hx => ?_⟩
    obtain ⟨hstack, hle⟩ := hleft j x hx
    exact ⟨hstack, .inr hle⟩
  have hstacks₁ : ∀ i x, (s₁.suspended s₁.cpu).saved i = some x → OnStack x.base := by
    intro i x hx
    by_cases hi : i = (s₁.cur, .kernel)
    · subst hi
      obtain rfl := Option.some.inj (suspended_self.symm.trans hx)
      rw [hbase]
      exact newTask_onStack
    · exact (hleft i x ((Function.update_of_ne hi _ _).symm.trans hx)).1
  have hwaits : s₁.saved (false, .kernel) = some s.callSaved := by
    have hself := suspended_of_switch (by rw [h.cur]; decide) hsaved
    rwa [h.cur] at hself
  obtain ⟨d₁, d₂, s₂, hok', hback⟩ := hinv₁.exists_switch twoTasks_ok hmode hroom₁ (q := false)
    (.inr (by rw [hwaits]; rfl)) (running_free hstacks₁)
  obtain ⟨_, _, _, z, hz, _, hsp'⟩ := hinv₁.resumed twoTasks_ok hok' hback
  rw [suspended_of_ne (by rw [hcur]; decide), hwaits] at hz
  obtain rfl := Option.some.inj hz
  refine ⟨c₁, c₂, s₁, d₁, d₂, s₂, hok, hcall, hcur, hok', hback, ?_⟩
  rw [hsp', callSaved, BitVec.sub_add_cancel]

end CanSwitch

/-- The first task comes back from the second one with its register. -/
theorem first_task_back : ∃ s s₁ s₃ : System Bool, s.cpu.reg 16 = 7 ∧ s.cur = false ∧
    s₁.cur = true ∧ Back twoTasks false s₁ s₃ ∧ s₃.cpu.reg 16 = 7 := by
  have hreach := bothTasks_reached startCpu
  have hswitch : CanSwitch (bothTasks startCpu) :=
    ⟨rfl, rfl, ⟨by decide, by decide⟩, ⟨by decide, by decide⟩, by decide, rfl,
      fun i x hi hx => absurd (bothTasks_saved hx).1 hi⟩
  obtain ⟨c₁, c₂, s₁, d₁, d₂, s₃, hok, hcall, hcur, hok', hback, _⟩ :=
    hswitch.there_and_back (reaches_inv twoTasks_ok rfl hreach)
  have hreturn : Back twoTasks false s₁ s₃ := .later (by rw [hcur]; decide) (.refl _) hok' hback
  have hregs := do_scheduler_transparent twoTasks_ok rfl hreach hok hcall hreturn
  exact ⟨bothTasks startCpu, s₁, s₃, rfl, rfl, hcur, hreturn,
    hregs.2.1 16 (by decide) (by decide) (by decide)⟩

/-- The registers of a program at an exception. -/
theorem Inv.trapped {s s' : System T} {exited : Bool} (h : Inv y s) (hy : y.Ok)
    (hok : s.Sound y (.enter exited)) (hstep : step y s (.enter exited) = some s') :
    s'.cur = s.cur ∧ s'.inKernel = true ∧
      s'.cpu.reg sp = s.cpu.mem (y.word (s.cur, .kernel)) - 312 ∧
      s'.Trapped s.cur (s.cpu.mem (y.word (s.cur, .kernel)) - 312) (s.cpu.reg sp)
        s.cpu.context (interruptHelper exited (sext (s.cpu.cp0 .cause))) := by
  obtain ⟨c, hrun, _, hsp, ha2, _⟩ := h.enter hy hok
  obtain rfl := Option.some.inj ((step_enter hrun).symm.trans hstep)
  refine ⟨rfl, rfl, hsp, ?_, ?_, ?_⟩ <;> dsimp only
  · rw [Function.update_self, Function.update_self, trapSaved]
    rfl
  · rw [Function.update_self, ha2]
  · rw [Function.update_self]
    nofun

/-- What is saved after an exception. -/
theorem Inv.trapped_saved {s s' : System T} {exited : Bool} (h : Inv y s) (hy : y.Ok)
    (hok : s.Sound y (.enter exited)) (hstep : step y s (.enter exited) = some s') :
    s'.saved = Function.update s.saved (s.cur, .user) (some (s.trapSaved y)) := by
  obtain ⟨c, hrun, _⟩ := h.enter hy hok
  obtain rfl := Option.some.inj ((step_enter hrun).symm.trans hstep)
  rfl

/-- Whatever the tasks do in between, a program that is interrupted goes on with its
registers as they were, but for `$k0` and `$k1`.  After a system call `$v0` has the answer
and the program goes on behind the instruction.  The kernel stack is as it was. -/
theorem exception_transparent (hy : y.Ok) {c : Cpu} {t : T} (hk0 : c.reg k0 = y.pcb t)
    {s s₁ s₂ s₃ : System T} (hreach : Reaches (step y) (Sound y) (boot c t) s) {exited : Bool}
    (hok : s.Sound y (.enter exited)) (henter : step y s (.enter exited) = some s₁)
    (hrun : Reaches (step y) (fun u op => Sound y u op ∧ ¬ Returns s.cur u op) s₁ s₂)
    (hcur : s₂.cur = s.cur) (hok' : s₂.Sound y .leave) (hleave : step y s₂ .leave = some s₃) :
    (∀ r, r ≠ zero → r ≠ v0 → r ≠ k0 → r ≠ k1 → s₃.cpu.reg r = s.cpu.reg r) ∧
      s₃.cpu.hi = s.cpu.hi ∧ s₃.cpu.lo = s.cpu.lo ∧
      s₃.cpu.cp0 .status = sext (s.cpu.cp0 .status) ∧
      (interruptHelper exited (sext (s.cpu.cp0 .cause)) ≠ .syscall →
        s₃.cpu.reg v0 = s.cpu.reg v0 ∧ s₃.cpu.cp0 .epc = sext (s.cpu.cp0 .epc)) ∧
      (interruptHelper exited (sext (s.cpu.cp0 .cause)) = .syscall →
        s₂.answer s.cur = some (s₃.cpu.reg v0) ∧
          s₃.cpu.cp0 .epc = sext (s.cpu.cp0 .epc) + 4) ∧
      s₃.cpu.mem (y.word (s.cur, .kernel)) = s.cpu.mem (y.word (s.cur, .kernel)) := by
  have hinv := reaches_inv hy hk0 hreach
  obtain ⟨_, _, _, htrap⟩ := hinv.trapped hy hok henter
  obtain ⟨hinv₂, htrap₂⟩ := hrun.invariant (fun u => Inv y u ∧ u.Trapped s.cur _ _ _ _)
    ⟨hinv.of_step hy hok henter, htrap⟩ fun u op u' hu hop hstep =>
      ⟨hu.1.of_step hy hop.1 hstep, hu.1.stays_trapped hy hop.1 hop.2 hu.2 hstep⟩
  obtain ⟨_, ⟨z, hz, hsp⟩, hanswer⟩ := hok'
  obtain ⟨d, hret, hfields, hspd, _, hword, _⟩ := hinv₂.leave hy hz hsp
  obtain rfl := Option.some.inj ((step_leave hret).symm.trans hleave)
  rw [hcur] at hz hanswer hword
  obtain rfl := Option.some.inj (htrap₂.saved.symm.trans hz)
  dsimp only at hfields hspd hword ⊢
  have hkeep : ∀ f ∈ savedFields, f ≠ .reg v0 → f ≠ .epc → d.field f = s.cpu.context f := by
    intro f hf hv0 hepc
    rw [hfields f hf]
    cases s₂.answer s.cur with
    | none => rfl
    | some v => exact (Function.update_of_ne hepc _ _).trans (Function.update_of_ne hv0 _ _)
  refine ⟨fun r hz hv hk hk' => ?_, hkeep .hi (by decide) (by decide) (by decide),
    hkeep .lo (by decide) (by decide) (by decide),
    hkeep .status (by decide) (by decide) (by decide), fun hne => ?_, fun hsys => ?_, ?_⟩
  · rcases saved_cases r with hr | hr | hr | hr | rfl
    · exact hkeep (.reg r) (reg_mem hr) (fun heq => hv (Field.reg.inj heq)) nofun
    · exact absurd hr hz
    · exact absurd hr hk
    · exact absurd hr hk'
    · exact hspd
  · have hnone : s₂.answer s.cur = none := by
      rw [← Option.not_isSome_iff_eq_none]
      exact fun hsome => hne (htrap₂.syscall hsome)
    rw [hnone] at hfields
    exact ⟨hfields (.reg v0) (by decide), hfields .epc (by decide)⟩
  · obtain ⟨v, hv⟩ := Option.isSome_iff_exists.mp (hanswer (htrap₂.handler.trans hsys))
    rw [hv] at hfields ⊢
    have hv0 : d.reg v0 = v := (hfields (.reg v0) (by decide)).trans rfl
    exact ⟨congrArg some hv0.symm, hfields .epc (by decide)⟩
  · rw [hword, BitVec.sub_add_cancel]

/-! ### A program -/

/-- The start with another stack pointer. -/
def programCpu : Cpu := startCpu.setReg sp 0xffffffffa0e90000

/-- A program is interrupted by the timer, the other task runs in between, and then the
program goes on. -/
theorem program_back : ∃ s s₁ u s₂ s₃ : System Bool, step twoTasks s (.enter false) = some s₁ ∧
    (∃ c₁ c₂, step twoTasks s₁ (.switch true c₁ c₂) = some u) ∧ u.cur = true ∧
    (∃ d₁ d₂, step twoTasks u (.switch false d₁ d₂) = some s₂) ∧
    step twoTasks s₂ .leave = some s₃ ∧ s₃.cpu.reg sp = s.cpu.reg sp := by
  have hstart := reaches_inv twoTasks_ok rfl (bothTasks_reached programCpu)
  have hok : (bothTasks programCpu).Sound twoTasks .startUp :=
    ⟨rfl, rfl, by decide, by decide, by decide, by decide⟩
  obtain ⟨c, hrun, _, hword, _⟩ := hstart.startUp twoTasks_ok hok
  generalize hs : { bothTasks programCpu with
    cpu := { c with cp0 := fun _ => 0x8000 }, inKernel := false } = s
  have hreach : Reaches (step twoTasks) (Sound twoTasks) (boot programCpu false) s := by
    rw [← hs]
    exact ((bothTasks_reached programCpu).snoc hok (step_startUp hrun)).snoc
      (e := .user { c with cp0 := fun _ => 0x8000 }) ⟨rfl, rfl, rfl⟩ rfl
  have hinv := reaches_inv twoTasks_ok rfl hreach
  have hcause : s.cpu.cp0 .cause = 0x8000 := by rw [← hs]
  have hcur : s.cur = false := by rw [← hs]; rfl
  have hsaved : s.saved = (bothTasks programCpu).saved := by rw [← hs]
  have hword : s.cpu.mem (twoTasks.word (s.cur, .kernel)) = 0xffffffffa0e90138 := by
    rw [← hs]
    exact hword
  have hok₁ : s.Sound twoTasks (.enter false) := by
    refine ⟨by rw [← hs], ?_⟩
    rw [hword]
    refine ⟨⟨by decide, by decide⟩, free_of_apart ⟨by decide, by decide⟩ fun j x _ hx => ?_⟩
    rw [hsaved] at hx
    obtain ⟨_, rfl⟩ := bothTasks_saved hx
    exact ⟨newTask_onStack, .inl (by decide)⟩
  obtain ⟨s₁, henter, hinv₁⟩ := hinv.exists_step twoTasks_ok hok₁
  obtain ⟨hcur₁, hmode, hsp, htrap⟩ := hinv.trapped twoTasks_ok hok₁ henter
  have hother := hinv.trapped_saved twoTasks_ok hok₁ henter
  rw [hword] at hsp htrap
  have hswitch : CanSwitch s₁ := by
    have hbase : s₁.callSaved.base = 0xffffffffa0e90000 - 312 := by rw [callSaved, hsp]; rfl
    refine ⟨hmode, hcur₁.trans hcur, ?_, ?_, ?_, ?_, fun i x hi hx => ?_⟩
    · rw [hsp]
      exact ⟨by decide, by decide⟩
    · rw [hbase]
      exact ⟨by decide, by decide⟩
    · rw [hbase]
      decide
    · rw [hother, hcur, Function.update_of_ne (by decide), hsaved]
      rfl
    · rw [hother] at hx
      by_cases hself : i = (s.cur, .user)
      · rw [hself, Function.update_self] at hx
        have hframe : x.base = 0xffffffffa0e90000 := by
          rw [← Option.some.inj hx, trapSaved, hword]
          rfl
        rw [hbase, hframe]
        exact ⟨⟨by decide, by decide⟩, by decide⟩
      · rw [Function.update_of_ne hself, hsaved] at hx
        exact absurd (bothTasks_saved hx).1 hi
  obtain ⟨c₁, c₂, u, d₁, d₂, s₂, hthere, hcall, hcuru, hback, hreturn, hsp₂⟩ :=
    hswitch.there_and_back hinv₁
  have hinvu := hinv₁.of_step twoTasks_ok hthere hcall
  have hinv₂ := hinvu.of_step twoTasks_ok hback hreturn
  have htrap₂ := hinvu.stays_trapped twoTasks_ok hback id
    (hinv₁.stays_trapped twoTasks_ok hthere id htrap hcall) hreturn
  obtain ⟨hcur₂, hmode₂, _⟩ := hinvu.resumed twoTasks_ok hback hreturn
  have hok₂ : s₂.Sound twoTasks .leave := by
    rw [hcur] at htrap₂
    refine ⟨hmode₂, ⟨_, by rw [hcur₂]; exact htrap₂.saved, hsp₂.trans hsp⟩, fun hsys => ?_⟩
    rw [hcur₂, htrap₂.handler, hcause] at hsys
    exact absurd hsys (by decide)
  obtain ⟨s₃, hleave, _⟩ := hinv₂.exists_step twoTasks_ok hok₂
  have hbetween : Reaches (step twoTasks)
      (fun v op => Sound twoTasks v op ∧ ¬ Returns s.cur v op) s₁ s₂ :=
    ((Reaches.refl s₁).snoc ⟨hthere, id⟩ hcall).snoc ⟨hback, id⟩ hreturn
  have hsame := exception_transparent twoTasks_ok rfl hreach hok₁ henter hbetween
    (hcur₂.trans hcur.symm) hok₂ hleave
  exact ⟨s, s₁, u, s₂, s₃, henter, ⟨c₁, c₂, hcall⟩, hcuru, ⟨d₁, d₂, hreturn⟩, hleave,
    hsame.1 sp (by decide) (by decide) (by decide) (by decide)⟩

end System

end MipsOs.Arch
