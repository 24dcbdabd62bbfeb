import MipsOs.Lib.CString
import MipsOs.Lib.Stores
import MipsOs.Sched.Kernel

/-!
# The arguments of a new process

`do_spawn` of `kernel/sched/sched.c` lays out the new kernel stack from the top down:
the user context, a slot of 64 bytes for each argument, the kernel context.  When the
process is switched to for the first time, the kernel context takes it to
`start_up_return`, which calls `start_up` to copy the arguments once more: below
`USER_STACK_TOP` there is an array of 16 pointers and below the array a slot of 64
bytes for each argument, the first one at the top.  `start_up` answers the size of
the slots on the kernel stack, and the process goes on from the user context above them.

The kernel stack and the user memory are two memories of bytes, and the functions are
the stores that they make.
-/

namespace MipsOs.Sched

open MipsOs.Lib

/-- `USER_STACK_TOP` -/
def userStackTop : Nat := 0x5000000

/-- `OFFSET_STATUS` -/
def offsetStatus : Nat := 256

/-- `OFFSET_EPC` -/
def offsetEpc : Nat := 296

/-- The size of the slot of one argument. -/
def argSize : Nat := 64

/-- The constants that go into the contexts: `task->entry_point`,
`initial_cp0_status` and the address of `start_up_return`. -/
structure SpawnConsts where
  entryPoint : UInt64
  initialCp0Status : UInt64
  startUpReturn : UInt64
  deriving DecidableEq, Repr

/-! ## The contexts -/

/-- `memset` of a context and the stores to its fields, by their offsets. -/
def contextStores (context : Nat) (fields : List (Nat × Nat)) : List Store :=
  { addr := context, bytes := List.replicate regsContextSize 0 } ::
    fields.map fun (offset, v) => { addr := context + offset, bytes := wordBytes v }

/-- `context->regs[i]` -/
def reg (m : ByteMem) (context i : Nat) : Nat := loadWord m (context + 8 * i)

/-! ## `do_spawn` -/

/-- The text of argument `i`. -/
def argText (argv : List CString) (i : Nat) : List UInt8 := (argv.map CString.bytes).getD i []

/-- Where `do_spawn` puts the contexts and the arguments. -/
def userContext (kernelStack : Nat) : Nat := kernelStack - regsContextSize

/-- The copies of the arguments, below the user context. -/
def argsArea (kernelStack argc : Nat) : Nat := userContext kernelStack - argSize * argc

/-- The kernel context, below the arguments. -/
def kernelContext (kernelStack argc : Nat) : Nat := argsArea kernelStack argc - regsContextSize

/-- The stores of `do_spawn` to the kernel stack. -/
structure SpawnStores where
  user : List Store
  strings : List Store
  kernel : List Store

/-- All of them, in order. -/
def SpawnStores.all (s : SpawnStores) : List Store := s.user ++ (s.strings ++ s.kernel)

/-- `do_spawn` with the new kernel stack.  The stack pointer of the process is the
address of the kernel context. -/
def doSpawn (c : SpawnConsts) (kernelStack : Nat) (argv : List CString) : SpawnStores :=
  let argc := argv.length
  let args := if 0 < argc then argsArea kernelStack argc else 0
  { user := contextStores (userContext kernelStack)
      [(8 * 31, 0), (offsetStatus, c.initialCp0Status.toNat), (offsetEpc, c.entryPoint.toNat)]
    strings := (List.range argc).map fun i =>
      -- `strcpy(args[i], argv[i])`
      { addr := args + argSize * i, bytes := argText argv i ++ [0] }
    kernel := contextStores (kernelContext kernelStack argc)
      [(8 * 31, c.startUpReturn.toNat), (8 * 4, userContext kernelStack), (8 * 5, argc),
        (8 * 6, args), (8 * 7, userStackTop), (offsetStatus, c.initialCp0Status.toNat)] }

/-! ## `start_up` -/

/-- What `start_up` does. -/
structure StartUp where
  userStores : List Store
  kernelStores : List Store
  userSp : Nat
  ret : Nat

/-- The loop of `start_up` from argument `i` on, with `n` arguments to go: its stores
and `user_stack` at the end.  `none` when a string is not shorter than `fuel`. -/
def startUpLoop (fuel : Nat) (kernel : ByteMem) (args newArgv : Nat) :
    Nat → Nat → Nat → Option (List Store × Nat)
  | 0, _, userStack => some ([], userStack)
  | n + 1, i, userStack => do
    let userStack := userStack - argSize
    let arg ← readString kernel fuel (args + argSize * i)
    let (stores, last) ← startUpLoop fuel kernel args newArgv n (i + 1) userStack
    return ({ addr := newArgv + 8 * i, bytes := wordBytes userStack } ::
      { addr := userStack, bytes := arg ++ [0] } :: stores, last)

/-- `start_up` -/
def startUp (fuel : Nat) (kernel : ByteMem) (userContext argc args userStack : Nat) :
    Option StartUp := do
  let newArgv := if 0 < argc then userStack - 8 * 16 else 0
  let userStack := if 0 < argc then newArgv else userStack
  let (stores, userStack) ← startUpLoop fuel kernel args newArgv argc 0 userStack
  return {
    userStores := stores
    kernelStores := [{ addr := userContext + 8 * 4, bytes := wordBytes argc },
      { addr := userContext + 8 * 5, bytes := wordBytes newArgv }]
    userSp := userStack
    ret := argc * argSize }

/-- `addu`: the sum of two words, sign-extended. -/
def addu (x y : Nat) : Nat :=
  let sum := (x + y) % 2 ^ 32
  if sum < 2 ^ 31 then sum else sum + (2 ^ 64 - 2 ^ 32)

/-- A process at its entry point. -/
structure Entered where
  a0 : Nat
  a1 : Nat
  epc : Nat
  kernelSp : Nat
  userSp : Nat
  userStores : List Store
  user : ByteMem

/-- The first switch to a process: the kernel context takes it to `start_up_return`,
which calls `start_up` and restores the context that it finds above the arguments. -/
def enter (fuel : Nat) (c : SpawnConsts) (kernel user : ByteMem) (kernelSp : Nat) :
    Option Entered :=
  if reg kernel kernelSp 31 = c.startUpReturn.toNat then do
    let r ← startUp fuel kernel (reg kernel kernelSp 4) (reg kernel kernelSp 5)
      (reg kernel kernelSp 6) (reg kernel kernelSp 7)
    let kernel := storeAll kernel r.kernelStores
    let sp := addu (addu kernelSp regsContextSize) r.ret
    return {
      a0 := reg kernel sp 4
      a1 := reg kernel sp 5
      epc := loadWord kernel (sp + offsetEpc)
      kernelSp := addu sp regsContextSize
      userSp := r.userSp
      userStores := r.userStores
      user := storeAll user r.userStores }
  else none

/-! ## What is asked of the arguments -/

/-- The process enters at its entry point with the arguments, and every store of the
way there is in its place. -/
structure Passed (c : SpawnConsts) (kernelStack : Nat) (argv : List CString) (r : Entered) :
    Prop where
  a0 : r.a0 = argv.length
  a1 : ∀ i < argv.length, HoldsString r.user (loadWord r.user (r.a1 + 8 * i)) (argText argv i)
  epc : r.epc = c.entryPoint.toNat
  inSlot : ∀ s ∈ (doSpawn c kernelStack argv).all, s.Within (kernelStack - stackSize) kernelStack
  apart : ∀ s ∈ (doSpawn c kernelStack argv).strings,
    s.Within (kernelContext kernelStack argv.length + regsContextSize) (userContext kernelStack)
  below : ∀ s ∈ r.userStores, s.Within r.userSp userStackTop
  kernelSp : r.kernelSp = kernelStack

/-- Whatever the two memories held before, the arguments are passed. -/
def PassesArguments (c : SpawnConsts) (kernelStack : Nat) (argv : List CString) : Prop :=
  ∀ kernel user, ∃ fuel r, enter fuel c (storeAll kernel (doSpawn c kernelStack argv).all) user
    (kernelContext kernelStack argv.length) = some r ∧ Passed c kernelStack argv r

/-- The top of the slot of a task. -/
def IsSlotTop (kernelStack : Nat) : Prop := ∃ m < numMaxTask, kernelStack = stackTop - m * stackSize

theorem IsSlotTop.bounds {kernelStack : Nat} (h : IsSlotTop kernelStack) :
    2 ^ 64 - 2 ^ 31 + 2 * stackSize ≤ kernelStack ∧ kernelStack < 2 ^ 64 - 2 ^ 16 := by
  obtain ⟨m, hm, rfl⟩ := h
  simp only [numMaxTask, stackTop, stackSize] at hm ⊢
  omega

theorem addu_eq {x y : Nat} (hx : 2 ^ 64 - 2 ^ 31 ≤ x) (hsum : x + y < 2 ^ 64) :
    addu x y = x + y := by
  unfold addu
  dsimp only
  split <;> omega

/-! ## Loads from the contexts -/

section Loads

variable {m : ByteMem} {context off v : Nat} {before after : List (Nat × Nat)}
  {xs ys : List Store}

/-- A field is loaded as it was stored last. -/
theorem loadWord_contextStores (before : List (Nat × Nat)) {after : List (Nat × Nat)}
    (hafter : ∀ f ∈ after, f.1 + 8 ≤ off ∨ off + 8 ≤ f.1) (hv : v < 2 ^ 64)
    (hys : ∀ t ∈ ys, ∀ b, context + off ≤ b → b < context + off + 8 → ¬ t.Covers b) :
    loadWord (storeAll m (contextStores context (before ++ (off, v) :: after) ++ ys))
      (context + off) = v := by
  have hsplit : contextStores context (before ++ (off, v) :: after) ++ ys =
      contextStores context before ++ { addr := context + off, bytes := wordBytes v } ::
        (after.map (fun f => { addr := context + f.1, bytes := wordBytes f.2 }) ++ ys) := by
    unfold contextStores
    simp only [List.map_append, List.map_cons, List.cons_append, List.append_assoc]
  rw [hsplit]
  apply loadWord_storeAll _ rfl hv
  intro t ht b hlo hhi
  rcases List.mem_append.mp ht with ht | ht
  · obtain ⟨f, hf, rfl⟩ := List.mem_map.mp ht
    have hdisj := hafter f hf
    unfold Store.Covers
    rw [length_wordBytes]
    dsimp only at hlo hhi ⊢
    omega
  · exact hys t ht b hlo hhi

end Loads

/-! ## The first switch -/

section Enter

variable {c : SpawnConsts} {kernelStack : Nat} {argv : List CString} (kernel : ByteMem)

/-- The kernel stack after `do_spawn`. -/
def spawned (c : SpawnConsts) (kernelStack : Nat) (argv : List CString) : ByteMem :=
  storeAll kernel (doSpawn c kernelStack argv).all

/-- A register of the kernel context. -/
theorem reg_kernelContext {i v : Nat} (before after : List (Nat × Nat))
    (hkernel : (doSpawn c kernelStack argv).kernel =
      contextStores (kernelContext kernelStack argv.length) (before ++ (8 * i, v) :: after))
    (hafter : ∀ f ∈ after, f.1 + 8 ≤ 8 * i ∨ 8 * i + 8 ≤ f.1) (hv : v < 2 ^ 64) :
    reg (spawned kernel c kernelStack argv) (kernelContext kernelStack argv.length) i = v := by
  unfold spawned SpawnStores.all reg
  rw [← List.append_assoc, storeAll_append, hkernel, ← List.append_nil (contextStores _ _)]
  exact loadWord_contextStores before hafter hv fun t ht => absurd ht List.not_mem_nil

/-- The arguments fit between the contexts. -/
def FrameFits (argc : Nat) : Prop := 2 * regsContextSize + argSize * argc ≤ stackSize

theorem layout {argc : Nat} (htop : IsSlotTop kernelStack) (hfits : FrameFits argc) :
    kernelContext kernelStack argc + regsContextSize = argsArea kernelStack argc ∧
      argsArea kernelStack argc + argSize * argc = userContext kernelStack ∧
      userContext kernelStack + regsContextSize = kernelStack ∧
      kernelStack - stackSize ≤ kernelContext kernelStack argc ∧
      2 ^ 64 - 2 ^ 31 + stackSize ≤ kernelContext kernelStack argc ∧
      kernelStack < 2 ^ 64 - 2 ^ 16 := by
  obtain ⟨hlo, hhi⟩ := htop.bounds
  unfold FrameFits at hfits
  unfold kernelContext argsArea userContext
  simp only [stackSize, regsContextSize, argSize] at hlo hfits ⊢
  omega

/-- What the kernel context gives to `start_up_return`. -/
theorem regs_spawned (htop : IsSlotTop kernelStack) (hfits : FrameFits argv.length) :
    reg (spawned kernel c kernelStack argv) (kernelContext kernelStack argv.length) 31 =
        c.startUpReturn.toNat ∧
      reg (spawned kernel c kernelStack argv) (kernelContext kernelStack argv.length) 4 =
        userContext kernelStack ∧
      reg (spawned kernel c kernelStack argv) (kernelContext kernelStack argv.length) 5 =
        argv.length ∧
      reg (spawned kernel c kernelStack argv) (kernelContext kernelStack argv.length) 6 =
        (if 0 < argv.length then argsArea kernelStack argv.length else 0) ∧
      reg (spawned kernel c kernelStack argv) (kernelContext kernelStack argv.length) 7 =
        userStackTop := by
  obtain ⟨_, _, _, _, _, hhi⟩ := layout htop hfits
  have hargs : argsArea kernelStack argv.length < 2 ^ 64 := by omega
  have hargc : argv.length < 2 ^ 64 := by
    unfold FrameFits at hfits
    simp only [regsContextSize, argSize, stackSize] at hfits
    omega
  refine ⟨?_, ?_, ?_, ?_, ?_⟩
  · exact reg_kernelContext kernel [] _ rfl (by simp [offsetStatus]) c.startUpReturn.toNat_lt
  · exact reg_kernelContext kernel [_] _ rfl (by simp [offsetStatus]) (by omega)
  · exact reg_kernelContext kernel [_, _] _ rfl (by simp [offsetStatus]) hargc
  · refine reg_kernelContext kernel [_, _, _] _ rfl (by simp [offsetStatus]) ?_
    split <;> omega
  · exact reg_kernelContext kernel [_, _, _, _] _ rfl (by simp [offsetStatus]) (by decide)

/-- The pointers and the slots below `USER_STACK_TOP`. -/
def newArgv : Nat := userStackTop - 8 * 16

/-- The slot of argument `i` on the user stack. -/
def argSlot (i : Nat) : Nat := newArgv - argSize * (i + 1)

/-- What the process finds at its entry point when the loop of `start_up` makes `stores`. -/
def enteredWith (c : SpawnConsts) (kernelStack : Nat) (argv : List CString) (user : ByteMem)
    (stores : List Store) (last : Nat) : Entered where
  a0 := argv.length
  a1 := if 0 < argv.length then newArgv else 0
  epc := loadWord (spawned kernel c kernelStack argv) (userContext kernelStack + offsetEpc)
  kernelSp := kernelStack
  userSp := last
  userStores := stores
  user := storeAll user stores

/-- What `start_up` leaves in the user context. -/
theorem userContext_startUp (m : ByteMem) (context : Nat) {argc newArgv : Nat}
    (hargc : argc < 2 ^ 64) (hnew : newArgv < 2 ^ 64) :
    reg (storeAll m [{ addr := context + 8 * 4, bytes := wordBytes argc },
        { addr := context + 8 * 5, bytes := wordBytes newArgv }]) context 4 = argc ∧
      reg (storeAll m [{ addr := context + 8 * 4, bytes := wordBytes argc },
        { addr := context + 8 * 5, bytes := wordBytes newArgv }]) context 5 = newArgv ∧
      loadWord (storeAll m [{ addr := context + 8 * 4, bytes := wordBytes argc },
        { addr := context + 8 * 5, bytes := wordBytes newArgv }]) (context + offsetEpc) =
        loadWord m (context + offsetEpc) := by
  refine ⟨?_, ?_, ?_⟩
  · apply loadWord_storeAll [] rfl hargc
    intro t ht b _ hhi
    obtain rfl := List.mem_singleton.mp ht
    unfold Store.Covers
    dsimp only at hhi ⊢
    omega
  · exact loadWord_storeAll [_] rfl hnew fun t ht => absurd ht List.not_mem_nil
  · apply loadWord_of_not_covers
    intro t ht b hlo _
    rw [offsetEpc] at hlo
    unfold Store.Covers
    rcases List.mem_pair.mp ht with rfl | rfl
    · rw [length_wordBytes]
      dsimp only
      omega
    · rw [length_wordBytes]
      dsimp only
      omega

/-- The first switch is the loop of `start_up`. -/
theorem enter_eq (fuel : Nat) (htop : IsSlotTop kernelStack) (hfits : FrameFits argv.length)
    (user : ByteMem) :
    enter fuel c (spawned kernel c kernelStack argv) user (kernelContext kernelStack argv.length) =
      (startUpLoop fuel (spawned kernel c kernelStack argv)
        (if 0 < argv.length then argsArea kernelStack argv.length else 0)
        (if 0 < argv.length then newArgv else 0) argv.length 0
        (if 0 < argv.length then newArgv else userStackTop)).map
        fun r => enteredWith kernel c kernelStack argv user r.1 r.2 := by
  obtain ⟨hkernel, huser', huser, _, hlo, hhi⟩ := layout htop hfits
  have hargc : argv.length < 2 ^ 32 := by
    unfold FrameFits at hfits
    simp only [regsContextSize, argSize, stackSize] at hfits
    omega
  obtain ⟨hra, h4, h5, h6, h7⟩ := @regs_spawned c kernelStack argv kernel htop hfits
  have hsp : addu (kernelContext kernelStack argv.length) regsContextSize =
      argsArea kernelStack argv.length := by
    rw [addu_eq (by omega) (by omega), hkernel]
  have hback : addu (argsArea kernelStack argv.length) (argv.length * argSize) =
      userContext kernelStack := by
    rw [addu_eq (by omega) (by rw [Nat.mul_comm]; omega), Nat.mul_comm, huser']
  have htopSp : addu (userContext kernelStack) regsContextSize = kernelStack := by
    rw [addu_eq (by omega) (by omega), huser]
  unfold enter startUp
  rw [if_pos hra, h4, h5, h6, h7]
  dsimp only
  have hbase : (if 0 < argv.length then if 0 < argv.length then userStackTop - 8 * 16 else 0
      else userStackTop) = if 0 < argv.length then newArgv else userStackTop := by
    split <;> rfl
  rw [hbase]
  show Option.bind (Option.bind (startUpLoop fuel (spawned kernel c kernelStack argv) _
    (if 0 < argv.length then newArgv else 0) argv.length 0 _) _) _ = _
  cases hloop : startUpLoop fuel (spawned kernel c kernelStack argv)
    (if 0 < argv.length then argsArea kernelStack argv.length else 0)
    (if 0 < argv.length then newArgv else 0) argv.length 0
    (if 0 < argv.length then newArgv else userStackTop) with
  | none => rfl
  | some r =>
    obtain ⟨stores, last⟩ := r
    rw [Option.bind_some, Option.map_some]
    dsimp only [Option.bind_some, Option.pure_def]
    have hnew : (if 0 < argv.length then newArgv else 0) < 2 ^ 64 := by
      split <;> decide
    obtain ⟨h0, h1, hepc⟩ := userContext_startUp (spawned kernel c kernelStack argv)
      (userContext kernelStack) (show argv.length < 2 ^ 64 by omega) hnew
    rw [hsp, hback, htopSp]
    exact congrArg some (Entered.mk.injEq .. ▸ ⟨h0, h1, hepc, rfl, rfl, rfl, rfl⟩)

end Enter

/-! ## The strings on the kernel stack -/

section Strings

variable {c : SpawnConsts} {kernelStack : Nat} {argv : List CString} (kernel : ByteMem) {i : Nat}

/-- All arguments are short, but one may be up to 127 bytes long. -/
structure OneLong (argv : List CString) : Prop where
  argc_le : argv.length ≤ 50
  length_lt : ∀ i < argv.length, (argText argv i).length < 2 * argSize
  short : ∀ i j, i < j → j < argv.length →
    (argText argv i).length < argSize ∨ (argText argv j).length < argSize

theorem OneLong.frameFits (h : OneLong argv) : FrameFits argv.length := by
  have hle := h.argc_le
  unfold FrameFits
  simp only [regsContextSize, argSize, stackSize]
  omega

theorem zero_notMem_argText (argv : List CString) (i : Nat) : 0 ∉ argText argv i := by
  unfold argText
  rcases Nat.lt_or_ge i (argv.map CString.bytes).length with hlt | hge
  · rw [List.getD_eq_getElem _ _ hlt, List.getElem_map]
    exact CString.nonzero _
  · rw [List.getD_eq_default _ _ hge]
    exact List.not_mem_nil

theorem range_split {n : Nat} (hi : i < n) :
    List.range n = List.range i ++ i :: List.range' (i + 1) (n - (i + 1)) := by
  have hsplit : List.range' 0 i ++ List.range' (0 + i) (n - i) = List.range' 0 (i + (n - i)) :=
    List.range'_append_1
  rw [List.range_eq_range', List.range_eq_range', ← List.range'_succ,
    show n - (i + 1) + 1 = n - i by omega]
  rw [Nat.zero_add, show i + (n - i) = n by omega] at hsplit
  exact hsplit.symm

/-- The store of the string of argument `i`. -/
def argStore (kernelStack : Nat) (argv : List CString) (i : Nat) : Store where
  addr := argsArea kernelStack argv.length + argSize * i
  bytes := argText argv i ++ [0]

theorem strings_eq :
    (doSpawn c kernelStack argv).strings =
      (List.range argv.length).map (argStore kernelStack argv) := by
  rcases Nat.eq_zero_or_pos argv.length with hzero | hpos
  · unfold doSpawn
    dsimp only
    rw [hzero]
    rfl
  · unfold doSpawn
    dsimp only
    rw [if_pos hpos]
    rfl

/-- The stores behind the string of argument `i`. -/
theorem all_split (hi : i < argv.length) :
    (doSpawn c kernelStack argv).all =
      ((doSpawn c kernelStack argv).user ++ (List.range i).map (argStore kernelStack argv)) ++
        argStore kernelStack argv i ::
        ((List.range' (i + 1) (argv.length - (i + 1))).map (argStore kernelStack argv) ++
          (doSpawn c kernelStack argv).kernel) := by
  unfold SpawnStores.all
  rw [strings_eq, range_split hi, List.map_append, List.map_cons]
  simp only [List.append_assoc, List.cons_append]

theorem contextStores_within {context : Nat} {fields : List (Nat × Nat)}
    (hfields : ∀ f ∈ fields, f.1 + 8 ≤ regsContextSize) :
    ∀ s ∈ contextStores context fields, s.Within context (context + regsContextSize) := by
  intro s hs
  rcases List.mem_cons.mp hs with rfl | hs
  · unfold Store.Within
    rw [List.length_replicate]
    exact ⟨le_rfl, le_rfl⟩
  · obtain ⟨f, hf, rfl⟩ := List.mem_map.mp hs
    have hfield := hfields f hf
    unfold Store.Within
    rw [length_wordBytes]
    dsimp only
    omega

theorem kernel_within : ∀ s ∈ (doSpawn c kernelStack argv).kernel,
    s.Within (kernelContext kernelStack argv.length)
      (kernelContext kernelStack argv.length + regsContextSize) :=
  contextStores_within (by simp [regsContextSize, offsetStatus])

theorem user_within : ∀ s ∈ (doSpawn c kernelStack argv).user,
    s.Within (userContext kernelStack) (userContext kernelStack + regsContextSize) :=
  contextStores_within (by simp [regsContextSize, offsetStatus, offsetEpc])

/-- Every argument is on the kernel stack up to the end of its slot. -/
theorem holdsBytes_argStore (htop : IsSlotTop kernelStack) (hfits : FrameFits argv.length)
    (hi : i < argv.length) :
    HoldsBytes (spawned kernel c kernelStack argv) (argsArea kernelStack argv.length + argSize * i)
      ((argText argv i ++ [0]).take argSize) := by
  obtain ⟨hkernel, _, _, _, _, _⟩ := layout htop hfits
  unfold spawned
  rw [all_split hi]
  refine holdsBytes_storeAll (s := argStore kernelStack argv i) _ fun t ht b hlo hhi => ?_
  rcases List.mem_append.mp ht with ht | ht
  · obtain ⟨j, hj, rfl⟩ := List.mem_map.mp ht
    have hlt := (List.mem_range'_1.mp hj).1
    unfold Store.Covers argStore at *
    dsimp only at *
    rw [argSize] at *
    omega
  · have hwithin := kernel_within t ht
    refine hwithin.not_covers (Or.inr ?_)
    rw [hkernel]
    unfold argStore at hlo
    dsimp only at hlo
    omega

/-- A short argument arrives on the kernel stack. -/
theorem holdsString_short (htop : IsSlotTop kernelStack) (hfits : FrameFits argv.length)
    (hi : i < argv.length) (hshort : (argText argv i).length < argSize) :
    HoldsString (spawned kernel c kernelStack argv)
      (argsArea kernelStack argv.length + argSize * i) (argText argv i) := by
  have hholds := holdsBytes_argStore (c := c) kernel htop hfits hi
  rw [List.take_of_length_le (by rw [List.length_append]; exact hshort)] at hholds
  exact ⟨hholds, zero_notMem_argText argv i⟩

/-- What `start_up` reads as argument `i`: behind the slot of a long argument stands the
next one. -/
def received (argv : List CString) (i : Nat) : List UInt8 :=
  if (argText argv i).length < argSize then argText argv i
  else (argText argv i).take argSize ++ argText argv (i + 1)

theorem holdsString_received (htop : IsSlotTop kernelStack) (h : OneLong argv)
    (hi : i < argv.length) (hnext : (argText argv i).length < argSize ∨ i + 1 < argv.length) :
    HoldsString (spawned kernel c kernelStack argv)
      (argsArea kernelStack argv.length + argSize * i) (received argv i) := by
  unfold received
  split
  · rename_i hshort
    exact holdsString_short kernel htop h.frameFits hi hshort
  · rename_i hlong
    have hlt : i + 1 < argv.length := hnext.resolve_left hlong
    have hshort := (h.short i (i + 1) (by omega) hlt).resolve_left hlong
    have hfirst := holdsBytes_argStore (c := c) kernel htop h.frameFits hi
    obtain ⟨hsecond, hzero⟩ := holdsString_short (c := c) kernel htop h.frameFits hlt hshort
    rw [List.take_append_of_le_length (by omega)] at hfirst
    constructor
    · rw [List.append_assoc, holdsBytes_append, List.length_take, min_eq_left (by omega),
        Nat.add_assoc, ← Nat.mul_succ]
      exact ⟨hfirst, hsecond⟩
    · rw [List.mem_append, not_or]
      exact ⟨fun hmem => zero_notMem_argText argv i (List.mem_of_mem_take hmem), hzero⟩

end Strings

/-! ## The loop of `start_up` -/

section Loop

variable {fuel args n i : Nat} {kernel : ByteMem} {strs : Nat → List UInt8} {r : List Store × Nat}

/-- `new_argv[i] = user_stack` -/
def pointerStore (i : Nat) : Store where
  addr := newArgv + 8 * i
  bytes := wordBytes (argSlot i)

/-- `strcpy(new_argv[i], args[i])` -/
def stringStore (strs : Nat → List UInt8) (i : Nat) : Store where
  addr := argSlot i
  bytes := strs i ++ [0]

/-- The stores for some arguments. -/
def copyStores (strs : Nat → List UInt8) (l : List Nat) : List Store :=
  l.flatMap fun i => [pointerStore i, stringStore strs i]

theorem startUpLoop_eq
    (h : ∀ j, i ≤ j → j < i + n → readString kernel fuel (args + argSize * j) = some (strs j)) :
    startUpLoop fuel kernel args newArgv n i (newArgv - argSize * i) =
      some (copyStores strs (List.range' i n), newArgv - argSize * (i + n)) := by
  induction n generalizing i with
  | zero => rfl
  | succ n ih =>
    have hslot : newArgv - argSize * i - argSize = argSlot i := by
      unfold argSlot
      rw [Nat.mul_succ, Nat.sub_sub]
    have hrest := ih (i := i + 1) fun j hj hlt => h j (by omega) (by omega)
    rw [startUpLoop, h i le_rfl (by omega), hslot]
    rw [show newArgv - argSize * (i + 1) = argSlot i from rfl] at hrest
    dsimp only [Option.bind_eq_bind, Option.bind_some]
    rw [hrest]
    dsimp only [Option.bind_some, Option.pure_def]
    rw [List.range'_succ, show i + 1 + n = i + (n + 1) by omega]
    rfl

/-- A loop that ends has read every string. -/
theorem exists_readString {newArgv userStack : Nat}
    (h : startUpLoop fuel kernel args newArgv n i userStack = some r) :
    ∀ j, i ≤ j → j < i + n → ∃ l, readString kernel fuel (args + argSize * j) = some l := by
  induction n generalizing i userStack r with
  | zero =>
    intro j hj hlt
    omega
  | succ n ih =>
    rw [startUpLoop] at h
    obtain ⟨arg, harg, h⟩ := Option.bind_eq_some_iff.mp h
    obtain ⟨rest, hrest, _⟩ := Option.bind_eq_some_iff.mp h
    intro j hj hlt
    rcases Nat.eq_or_lt_of_le hj with rfl | hlt'
    · exact ⟨arg, harg⟩
    · exact ih hrest j hlt' (by omega)

/-- The loop that ends copies the strings that the kernel stack holds. -/
theorem startUpLoop_some (h : startUpLoop fuel kernel args newArgv n 0 newArgv = some r) :
    ∃ strs : Nat → List UInt8, (∀ j < n, HoldsString kernel (args + argSize * j) (strs j)) ∧
      r = (copyStores strs (List.range n), newArgv - argSize * n) := by
  have hread : ∀ j, 0 ≤ j → j < 0 + n → readString kernel fuel (args + argSize * j) =
      some ((readString kernel fuel (args + argSize * j)).getD []) := by
    intro j hj hlt
    obtain ⟨l, hl⟩ := exists_readString h j hj hlt
    rw [hl, Option.getD_some]
  have heq := startUpLoop_eq hread
  rw [Nat.mul_zero, Nat.sub_zero, h, Nat.zero_add, ← List.range_eq_range'] at heq
  refine ⟨_, fun j hj => ?_, Option.some.inj heq⟩
  exact (readString_eq_some.mp (hread j (Nat.zero_le j) (by omega))).1

/-- The loop ends when the kernel stack holds strings. -/
theorem startUpLoop_holds {bound : Nat}
    (h : ∀ j < n, HoldsString kernel (args + argSize * j) (strs j) ∧ (strs j).length < bound) :
    startUpLoop bound kernel args newArgv n 0 newArgv =
      some (copyStores strs (List.range n), newArgv - argSize * n) := by
  have hread : ∀ j, 0 ≤ j → j < 0 + n →
      readString kernel bound (args + argSize * j) = some (strs j) :=
    fun j _ hlt => readString_eq_some.mpr (h j (by omega))
  have heq := startUpLoop_eq hread
  rwa [Nat.mul_zero, Nat.sub_zero, Nat.zero_add, ← List.range_eq_range'] at heq

end Loop

/-! ## The strings on the user stack -/

section UserStack

variable {n i : Nat} {strs : Nat → List UInt8} (user : ByteMem)

/-- The stores behind those for argument `i`. -/
theorem copyStores_split (hi : i < n) :
    copyStores strs (List.range n) =
      copyStores strs (List.range i) ++ pointerStore i :: stringStore strs i ::
        copyStores strs (List.range' (i + 1) (n - (i + 1))) := by
  unfold copyStores
  rw [range_split hi, List.flatMap_append, List.flatMap_cons]
  rfl

theorem mem_copyStores {l : List Nat} {s : Store} :
    s ∈ copyStores strs l ↔ ∃ j ∈ l, s = pointerStore j ∨ s = stringStore strs j := by
  unfold copyStores
  simp only [List.mem_flatMap, List.mem_cons, List.not_mem_nil, or_false]

/-- The array holds all the pointers, and no string goes beyond the slot above its own. -/
structure SlotsFit (n : Nat) (strs : Nat → List UInt8) : Prop where
  count : n ≤ 16
  length_lt : ∀ j < n, (strs j).length < 2 * argSize

theorem argSlot_add (hi : i < 16) : argSlot i + argSize * (i + 1) = newArgv := by
  unfold argSlot newArgv userStackTop argSize
  omega

theorem stringStore_within (h : SlotsFit n strs) {j : Nat} (hj : j < n) :
    (stringStore strs j).Within (argSlot j) (argSlot j + 2 * argSize) := by
  have hlt := h.length_lt j hj
  unfold Store.Within stringStore
  simp only [List.length_append, List.length_singleton]
  omega

/-- The string of an argument is below the array, but for a long first one. -/
theorem stringStore_below (h : SlotsFit n strs) {j : Nat} (hj : j < n)
    (hfirst : j = 0 → (strs 0).length < argSize) :
    (stringStore strs j).Within (argSlot j) newArgv := by
  have hlt := h.length_lt j hj
  have hcount := h.count
  have hslot := argSlot_add (show j < 16 by omega)
  unfold Store.Within stringStore
  simp only [List.length_append, List.length_singleton]
  rcases Nat.eq_zero_or_pos j with rfl | hpos
  · have hshort := hfirst rfl
    rw [argSize] at *
    omega
  · rw [argSize] at *
    omega

/-- The array holds the addresses of the slots. -/
theorem loadWord_pointer (h : SlotsFit n strs) (hfirst : (strs 0).length < argSize) (hi : i < n) :
    loadWord (storeAll user (copyStores strs (List.range n))) (newArgv + 8 * i) = argSlot i := by
  have hcount := h.count
  rw [copyStores_split hi]
  apply loadWord_storeAll _ (s := pointerStore i) rfl
  · unfold argSlot newArgv userStackTop
    omega
  · intro t ht b hlo hhi
    unfold pointerStore at hlo hhi
    dsimp only at hlo hhi
    have hstring : ∀ j < n, ¬ (stringStore strs j).Covers b := fun j hj =>
      (stringStore_below h hj fun _ => hfirst).not_covers (Or.inr (by omega))
    rcases List.mem_cons.mp ht with rfl | ht
    · exact hstring i hi
    · obtain ⟨j, hj, rfl | rfl⟩ := mem_copyStores.mp ht
      · have hlt := (List.mem_range'_1.mp hj).1
        unfold Store.Covers pointerStore
        rw [length_wordBytes]
        dsimp only
        omega
      · exact hstring j (by have hlt := (List.mem_range'_1.mp hj).2; omega)

/-- A slot holds its string when the next argument stays in its own slot. -/
theorem holdsString_slot (h : SlotsFit n strs) (hfirst : (strs 0).length < argSize) (hi : i < n)
    (hnext : i + 1 < n → (strs (i + 1)).length < argSize) (hzero : 0 ∉ strs i) :
    HoldsString (storeAll user (copyStores strs (List.range n))) (argSlot i) (strs i) := by
  have hcount := h.count
  have hbelow := stringStore_below h hi fun hzero => hfirst
  have hsplit : copyStores strs (List.range n) =
      (copyStores strs (List.range i) ++ [pointerStore i]) ++ stringStore strs i ::
        copyStores strs (List.range' (i + 1) (n - (i + 1))) := by
    rw [copyStores_split hi, List.append_assoc]
    rfl
  refine ⟨?_, hzero⟩
  rw [hsplit, show strs i ++ [0] =
    (stringStore strs i).bytes.take (stringStore strs i).bytes.length from List.take_length.symm]
  refine holdsBytes_storeAll (s := stringStore strs i) _ ?_
  · intro t ht b hlo hhi
    have hb : argSlot i ≤ b ∧ b < newArgv := ⟨hlo, lt_of_lt_of_le hhi hbelow.2⟩
    obtain ⟨j, hj, rfl | rfl⟩ := mem_copyStores.mp ht
    · unfold Store.Covers pointerStore
      dsimp only
      omega
    · obtain ⟨hlt, hjn⟩ := List.mem_range'_1.mp hj
      have hslot := argSlot_add (show i < 16 by omega)
      have hslot' := argSlot_add (show j < 16 by omega)
      rw [argSize] at *
      rcases Nat.eq_or_lt_of_le hlt with rfl | hlt
      · have hshort := hnext (by omega)
        unfold Store.Covers stringStore
        simp only [List.length_append, List.length_singleton]
        omega
      · refine (stringStore_within h (show j < n by omega)).not_covers (Or.inr ?_)
        rw [argSize]
        omega

/-- All the stores lie below `USER_STACK_TOP`, from the last slot on. -/
theorem copyStores_within (h : SlotsFit n strs) :
    ∀ s ∈ copyStores strs (List.range n), s.Within (newArgv - argSize * n) userStackTop := by
  intro s hs
  have hcount := h.count
  obtain ⟨j, hj, rfl | rfl⟩ := mem_copyStores.mp hs
  · have hlt := List.mem_range.mp hj
    unfold Store.Within pointerStore newArgv userStackTop argSize
    rw [length_wordBytes]
    dsimp only
    omega
  · have hlt := List.mem_range.mp hj
    refine (stringStore_within h hlt).mono ?_ ?_
    · exact Nat.sub_le_sub_left (Nat.mul_le_mul_left _ hlt) _
    · unfold argSlot newArgv userStackTop argSize
      omega

/-- A long first string overwrites the pointer to itself. -/
theorem byte_firstPointer (h : SlotsFit n strs) (hn : 0 < n) {l l' : List UInt8}
    (hstr : strs 0 = l ++ l') (hl : l.length = argSize) (hne : l' ≠ []) :
    storeAll user (copyStores strs (List.range n)) (newArgv + 1) = (l' ++ [0]).getD 1 0 := by
  have hcount := h.count
  have hpos := List.length_pos_of_ne_nil hne
  have hsplit : copyStores strs (List.range n) =
      [pointerStore 0] ++ stringStore strs 0 :: copyStores strs (List.range' 1 (n - 1)) := by
    rw [copyStores_split hn]
    rfl
  have hcovers : (stringStore strs 0).Covers (newArgv + 1) := by
    unfold Store.Covers stringStore argSlot newArgv userStackTop
    rw [hstr]
    simp only [List.length_append, List.length_singleton, hl, argSize]
    omega
  rw [hsplit, storeAll_last hcovers]
  · have hindex : newArgv + 1 - (stringStore strs 0).addr = l.length + 1 := by
      have hslot := argSlot_add (show 0 < 16 by decide)
      show newArgv + 1 - argSlot 0 = l.length + 1
      rw [hl]
      rw [argSize] at *
      omega
    rw [hindex]
    unfold stringStore
    dsimp only
    rw [hstr, List.append_assoc, List.getD_append_right _ _ _ _ (Nat.le_add_right _ _),
      Nat.add_sub_cancel_left]
  · intro t ht
    obtain ⟨j, hj, rfl | rfl⟩ := mem_copyStores.mp ht
    · have hlt := (List.mem_range'_1.mp hj).1
      unfold Store.Covers pointerStore
      dsimp only
      omega
    · obtain ⟨hlt, hjn⟩ := List.mem_range'_1.mp hj
      refine (stringStore_below h (show j < n by omega) fun hzero => ?_).not_covers
        (Or.inr (Nat.le_succ _))
      omega

end UserStack

/-! ## Which arguments are passed -/

section Passing

variable {c : SpawnConsts} {kernelStack i : Nat} {argv : List CString}

/-- The arguments that are passed: at most 16, and each shorter than its slot, or between
two arguments that are the rest of it behind its slot. -/
def FitsSlots (argv : List CString) : Prop :=
  argv.length ≤ 16 ∧ ∀ i < argv.length, (argText argv i).length < argSize ∨
    (0 < i ∧ i + 1 < argv.length ∧ argText argv (i - 1) = (argText argv i).drop argSize ∧
      argText argv (i + 1) = (argText argv i).drop argSize)

instance (argv : List CString) : Decidable (FitsSlots argv) := inferInstanceAs (Decidable (_ ∧ _))

theorem received_short (h : (argText argv i).length < argSize) :
    received argv i = argText argv i :=
  if_pos h

theorem received_long (h : ¬ (argText argv i).length < argSize) :
    received argv i = (argText argv i).take argSize ++ argText argv (i + 1) :=
  if_neg h

theorem length_received (h : OneLong argv) (hi : i < argv.length)
    (hnext : (argText argv i).length < argSize ∨ i + 1 < argv.length) :
    (received argv i).length < 2 * argSize := by
  by_cases hshort : (argText argv i).length < argSize
  · rw [received_short hshort]
    exact h.length_lt i hi
  · have hlt := hnext.resolve_left hshort
    have hother := (h.short i (i + 1) (Nat.lt_succ_self i) hlt).resolve_left hshort
    rw [received_long hshort, List.length_append, List.length_take]
    rw [argSize] at *
    omega

theorem slotsFit_received (h : OneLong argv) (hcount : argv.length ≤ 16)
    (hnext : ∀ i < argv.length, (argText argv i).length < argSize ∨ i + 1 < argv.length) :
    SlotsFit argv.length (received argv) where
  count := hcount
  length_lt i hi := length_received h hi (hnext i hi)

theorem FitsSlots.next (h : FitsSlots argv) :
    ∀ i < argv.length, (argText argv i).length < argSize ∨ i + 1 < argv.length :=
  fun i hi => (h.2 i hi).imp_right fun hlong => hlong.2.1

/-- Then every argument arrives as it is. -/
theorem FitsSlots.received_eq (h : FitsSlots argv) (hi : i < argv.length) :
    received argv i = argText argv i := by
  by_cases hshort : (argText argv i).length < argSize
  · exact received_short hshort
  · obtain ⟨_, _, _, hrest⟩ := (h.2 i hi).resolve_left hshort
    rw [received_long hshort, hrest, List.take_append_drop]

theorem FitsSlots.first (h : FitsSlots argv) (hpos : 0 < argv.length) :
    (argText argv 0).length < argSize := by
  by_contra hlong
  exact absurd ((h.2 0 hpos).resolve_left hlong).1 (Nat.lt_irrefl 0)

/-- The slot of an argument holds it, also when the next one runs over. -/
theorem FitsSlots.holdsString (h : FitsSlots argv) (hone : OneLong argv) (hi : i < argv.length)
    (user : ByteMem) :
    HoldsString (storeAll user (copyStores (received argv) (List.range argv.length))) (argSlot i)
      (argText argv i) := by
  have hslots := slotsFit_received hone h.1 h.next
  have hfirst : (received argv 0).length < argSize := by
    rw [h.received_eq (by omega)]
    exact h.first (by omega)
  have hzero : ∀ j < argv.length, 0 ∉ received argv j := fun j hj => by
    rw [h.received_eq hj]
    exact zero_notMem_argText argv j
  by_cases hnext : i + 1 < argv.length → (received argv (i + 1)).length < argSize
  · have hholds := holdsString_slot user hslots hfirst hi hnext (hzero i hi)
    rwa [h.received_eq hi] at hholds
  · rw [Classical.not_imp] at hnext
    obtain ⟨hlt, hlong⟩ := hnext
    rw [h.received_eq hlt] at hlong
    obtain ⟨_, hlt', hprev, _⟩ := (h.2 (i + 1) hlt).resolve_left hlong
    have hshort := (hone.short (i + 1) (i + 2) (Nat.lt_succ_self _) hlt').resolve_left hlong
    have hholds := holdsString_slot user hslots hfirst hlt
      (fun hlt => by rwa [h.received_eq hlt]) (hzero _ hlt)
    rw [h.received_eq hlt, ← List.take_append_drop argSize (argText argv (i + 1)),
      ← hprev] at hholds
    have hrest := hholds.drop
    have hslot := argSlot_add (show i < 16 by have := h.1; omega)
    have hslot' := argSlot_add (show i + 1 < 16 by have := h.1; omega)
    rw [List.length_take, min_eq_left (by omega), Nat.add_sub_cancel,
      show argSlot (i + 1) + argSize = argSlot i by rw [argSize] at *; omega] at hrest
    exact hrest

/-- The stores of the strings stay between the contexts. -/
theorem argStore_within (hfits : FrameFits argv.length) (htop : IsSlotTop kernelStack)
    (hlen : argSize * i + (argText argv i).length + 1 ≤ argSize * argv.length) :
    (argStore kernelStack argv i).Within
      (kernelContext kernelStack argv.length + regsContextSize) (userContext kernelStack) := by
  obtain ⟨hkernel, huser, _, _, _, _⟩ := layout htop hfits
  unfold Store.Within argStore
  rw [hkernel, ← huser]
  simp only [List.length_append, List.length_singleton]
  omega

theorem FitsSlots.apart (h : FitsSlots argv) (hone : OneLong argv) (htop : IsSlotTop kernelStack) :
    ∀ s ∈ (doSpawn c kernelStack argv).strings, s.Within
      (kernelContext kernelStack argv.length + regsContextSize) (userContext kernelStack) := by
  intro s hs
  rw [strings_eq] at hs
  obtain ⟨i, hi, rfl⟩ := List.mem_map.mp hs
  have hi := List.mem_range.mp hi
  refine argStore_within hone.frameFits htop ?_
  have hlt := hone.length_lt i hi
  have hnext := h.next i hi
  rw [argSize] at *
  omega

/-- All the stores of `do_spawn` go to the slot. -/
theorem all_within (hfits : FrameFits argv.length) (htop : IsSlotTop kernelStack)
    (hapart : ∀ s ∈ (doSpawn c kernelStack argv).strings, s.Within
      (kernelContext kernelStack argv.length + regsContextSize) (userContext kernelStack)) :
    ∀ s ∈ (doSpawn c kernelStack argv).all, s.Within (kernelStack - stackSize) kernelStack := by
  obtain ⟨hkernel, huser, htopUser, hlo, _, _⟩ := layout htop hfits
  intro s hs
  unfold SpawnStores.all at hs
  rcases List.mem_append.mp hs with hs | hs
  · exact (user_within s hs).mono (by omega) (by omega)
  · rcases List.mem_append.mp hs with hs | hs
    · exact (hapart s hs).mono (by omega) (by omega)
    · exact (kernel_within s hs).mono (by omega) (by omega)

/-- The entry point is still in the user context. -/
theorem epc_spawned (kernel : ByteMem) (hfits : FrameFits argv.length)
    (htop : IsSlotTop kernelStack)
    (hapart : ∀ s ∈ (doSpawn c kernelStack argv).strings, s.Within
      (kernelContext kernelStack argv.length + regsContextSize) (userContext kernelStack)) :
    loadWord (spawned kernel c kernelStack argv) (userContext kernelStack + offsetEpc) =
      c.entryPoint.toNat := by
  obtain ⟨hkernel, huser, _, _, _, _⟩ := layout htop hfits
  unfold spawned SpawnStores.all
  refine loadWord_contextStores [_, _] (fun f hf => absurd hf List.not_mem_nil)
    c.entryPoint.toNat_lt fun t ht b hlo _ => ?_
  rcases List.mem_append.mp ht with ht | ht
  · exact (hapart t ht).not_covers (Or.inr (by omega))
  · exact (kernel_within t ht).not_covers (Or.inr (by omega))

/-- The arguments that fit are passed. -/
theorem passes_of_fits (c : SpawnConsts) (htop : IsSlotTop kernelStack) (hone : OneLong argv)
    (h : FitsSlots argv) : PassesArguments c kernelStack argv := by
  intro kernel user
  have hframe := hone.frameFits
  have hapart := h.apart (c := c) hone htop
  have hepc := epc_spawned kernel hframe htop hapart
  have henter := enter_eq (c := c) kernel (2 * argSize) htop hframe user
  rcases Nat.eq_zero_or_pos argv.length with hzero | hpos
  · refine ⟨2 * argSize, enteredWith kernel c kernelStack argv user [] userStackTop, ?_, ?_⟩
    · refine henter.trans ?_
      rw [hzero]
      rfl
    · exact {
        a0 := rfl
        a1 := fun i hi => absurd hi (by omega)
        epc := hepc
        inSlot := all_within hframe htop hapart
        apart := hapart
        below := fun s hs => absurd hs List.not_mem_nil
        kernelSp := rfl }
  · have hreads : ∀ j < argv.length, HoldsString (spawned kernel c kernelStack argv)
        (argsArea kernelStack argv.length + argSize * j) (received argv j) ∧
        (received argv j).length < 2 * argSize := fun j hj =>
      ⟨holdsString_received _ htop hone hj (h.next j hj), length_received hone hj (h.next j hj)⟩
    have hslots := slotsFit_received hone h.1 h.next
    have hfirst : (received argv 0).length < argSize := by
      rw [h.received_eq hpos]
      exact h.first hpos
    simp only [if_pos hpos] at henter
    rw [startUpLoop_holds hreads] at henter
    refine ⟨2 * argSize, _, henter, ?_⟩
    exact {
      a0 := rfl
      a1 := fun i hi => by
        show HoldsString (storeAll user _) (loadWord (storeAll user _)
          ((if 0 < argv.length then newArgv else 0) + 8 * i)) _
        rw [if_pos hpos, loadWord_pointer user hslots hfirst hi]
        exact h.holdsString hone hi user
      epc := hepc
      inSlot := all_within hframe htop hapart
      apart := hapart
      below := copyStores_within hslots
      kernelSp := rfl }

/-- What a run of `start_up` with some arguments says about them. -/
structure Copied (argv : List CString) (user : ByteMem) : Prop where
  count : argv.length ≤ 16
  next : ∀ i < argv.length, (argText argv i).length < argSize ∨ i + 1 < argv.length
  holds : ∀ i < argv.length,
    HoldsString (storeAll user (copyStores (received argv) (List.range argv.length)))
      (loadWord (storeAll user (copyStores (received argv) (List.range argv.length)))
        (newArgv + 8 * i)) (argText argv i)

theorem copied_of_passes (htop : IsSlotTop kernelStack) (hone : OneLong argv)
    (hpos : 0 < argv.length) (hpass : PassesArguments c kernelStack argv) (user : ByteMem) :
    Copied argv user := by
  obtain ⟨fuel, r, hr, hpassed⟩ := hpass (fun _ => 0) user
  have henter := enter_eq (c := c) (fun _ => 0) fuel htop hone.frameFits user
  simp only [if_pos hpos] at henter
  rw [show storeAll (fun _ => 0) (doSpawn c kernelStack argv).all =
    spawned (fun _ => 0) c kernelStack argv from rfl, henter] at hr
  obtain ⟨res, hloop, rfl⟩ := Option.map_eq_some_iff.mp hr
  obtain ⟨strs, hstrs, rfl⟩ := startUpLoop_some hloop
  have hnext : ∀ i < argv.length,
      (argText argv i).length < argSize ∨ i + 1 < argv.length := by
    intro i hi
    have hwithin := hpassed.apart (argStore kernelStack argv i) (by
      rw [strings_eq]
      exact List.mem_map_of_mem (List.mem_range.mpr hi))
    obtain ⟨_, huser, _, _, _, _⟩ := layout htop hone.frameFits
    unfold Store.Within argStore at hwithin
    simp only [List.length_append, List.length_singleton, ← huser] at hwithin
    rw [argSize] at *
    omega
  have hreceived : copyStores strs (List.range argv.length) =
      copyStores (received argv) (List.range argv.length) := by
    unfold copyStores
    refine List.flatMap_congr fun j hj => ?_
    have hj := List.mem_range.mp hj
    have heq := (hstrs j hj).unique (holdsString_received _ htop hone hj (hnext j hj))
    unfold stringStore
    rw [heq]
  constructor
  · by_contra hmany
    have hwithin := hpassed.below (pointerStore 16)
      (mem_copyStores.mpr ⟨16, List.mem_range.mpr (by omega), Or.inl rfl⟩)
    have habove : ¬ newArgv + 8 * 16 + 8 ≤ userStackTop := by decide
    exact habove hwithin.2
  · exact hnext
  · intro i hi
    have hholds := hpassed.a1 i hi
    simp only [enteredWith, if_pos hpos, hreceived] at hholds
    exact hholds

/-- The first argument is short: a long one would overwrite its pointer with characters,
which are no address of the user stack. -/
theorem Copied.first (h : Copied argv fun _ => 0) (hone : OneLong argv) (hpos : 0 < argv.length)
    (hnonempty : ∀ i < argv.length, argText argv i ≠ [])
    (hascii : ∀ i, ∀ b ∈ argText argv i, b < 128) : (argText argv 0).length < argSize := by
  by_contra hlong
  have hlt := (h.next 0 hpos).resolve_left hlong
  have hslots := slotsFit_received hone h.count h.next
  have hbyte : storeAll (fun _ => 0) (copyStores (received argv) (List.range argv.length))
      (newArgv + 1) = (argText argv 1 ++ [0]).getD 1 0 :=
    byte_firstPointer (fun _ => 0) hslots hpos (received_long hlong)
      (by rw [List.length_take, min_eq_left (by omega)]) (hnonempty 1 hlt)
  have hchar : ((argText argv 1 ++ [0]).getD 1 0).toNat < 128 := by
    rcases Nat.lt_or_ge 1 (argText argv 1).length with hlen | hlen
    · rw [List.getD_append _ _ _ _ hlen, List.getD_eq_getElem _ _ hlen]
      exact UInt8.lt_iff_toNat_lt.mp (hascii 1 _ (List.getElem_mem _))
    · rw [List.getD_append_right _ _ _ _ hlen]
      obtain heq | heq : 1 - (argText argv 1).length = 0 ∨ 1 - (argText argv 1).length = 1 := by
        omega
      · rw [heq]
        decide
      · rw [heq]
        decide
  have hsecond := loadWord_secondByte
    (storeAll (fun _ => 0) (copyStores (received argv) (List.range argv.length))) newArgv
  rw [hbyte] at hsecond
  have hholds := h.holds 0 hpos
  rw [Nat.mul_zero, Nat.add_zero] at hholds
  generalize loadWord _ newArgv = pointer at hsecond hholds
  have hcount := h.count
  have hunwritten : storeAll (fun _ => 0)
      (copyStores (received argv) (List.range argv.length)) pointer = 0 := by
    refine storeAll_of_not_covers fun t ht => (copyStores_within hslots t ht).not_covers ?_
    unfold newArgv userStackTop argSize
    omega
  have hempty := hholds.unique (holdsString_nil.mpr hunwritten)
  exact hnonempty 0 hpos hempty

/-- The arguments that are passed fit. -/
theorem fits_of_passes (htop : IsSlotTop kernelStack) (hone : OneLong argv)
    (hnonempty : ∀ i < argv.length, argText argv i ≠ [])
    (hascii : ∀ i, ∀ b ∈ argText argv i, b < 128)
    (hpass : PassesArguments c kernelStack argv) : FitsSlots argv := by
  rcases Nat.eq_zero_or_pos argv.length with hzero | hpos
  · exact ⟨by omega, fun i hi => absurd hi (by omega)⟩
  · have hcopied := copied_of_passes htop hone hpos hpass fun _ => 0
    have hslots := slotsFit_received hone hcopied.count hcopied.next
    have hshort := hcopied.first hone hpos hnonempty hascii
    have hfirst : (received argv 0).length < argSize := by
      rwa [received_short hshort]
    refine ⟨hcopied.count, fun i hi => ?_⟩
    by_contra hnot
    rw [not_or] at hnot
    obtain ⟨hlong, hnot⟩ := hnot
    have hlt := (hcopied.next i hi).resolve_left hlong
    have hi0 : 0 < i := Nat.pos_of_ne_zero fun heq => hlong (heq ▸ hshort)
    have hother := (hone.short i (i + 1) (Nat.lt_succ_self i) hlt).resolve_left hlong
    have hzero : 0 ∉ received argv i := by
      rw [received_long hlong, List.mem_append, not_or]
      exact ⟨fun hmem => zero_notMem_argText argv i (List.mem_of_mem_take hmem),
        zero_notMem_argText argv (i + 1)⟩
    have hslot := holdsString_slot (fun _ => 0) hslots hfirst hi
      (fun _ => by rwa [received_short hother]) hzero
    have hself := hcopied.holds i hi
    rw [loadWord_pointer _ hslots hfirst hi] at hself
    have heq := hself.unique hslot
    rw [received_long hlong] at heq hslot
    have hnext : argText argv (i + 1) = (argText argv i).drop argSize := by
      rw [heq, List.drop_left']
      rw [List.length_take, min_eq_left (by omega)]
    have habove := hcopied.holds (i - 1) (by omega)
    rw [loadWord_pointer _ hslots hfirst (by omega)] at habove
    have hrest := hslot.drop
    have hcount := hcopied.count
    have hplace := argSlot_add (show i < 16 by omega)
    have hplace' := argSlot_add (show i - 1 < 16 by omega)
    rw [List.length_take, min_eq_left (by omega),
      show argSlot i + argSize = argSlot (i - 1) by rw [argSize] at *; omega] at hrest
    have hprev := habove.unique hrest
    exact hnot ⟨hi0, hlt, hprev.trans hnext, hnext⟩

end Passing

end MipsOs.Sched
