import MipsOs.Sched.Arguments
import MipsOs.Sched.KernelStack

/-!
# From a line of the shell to the arguments of a process

`prase_command` of `test/test_shell.c` cuts the line in its buffer at the spaces: it
overwrites them with zeros and collects the addresses of the words.  The command
`exec` passes all the words on to `do_spawn`.

A line of at most 99 characters has at most 50 words, and only one of them can be
longer than the 63 bytes for which `do_spawn` and `start_up` have room.
-/

namespace MipsOs.System

open MipsOs.Lib MipsOs.Sched

/-- `' '` -/
def spaceChar : UInt8 := 32

/-- The buffer of the shell after `get_command`: the line, and behind it the characters
that were typed and taken back.  A character is a `char` above zero. -/
structure CommandLine where
  line : List UInt8
  takenBack : List UInt8
  chars : ∀ b ∈ line ++ takenBack, 0 < CString.charValue b
  length_le : (line ++ takenBack).length ≤ 99

/-- The loop of `prase_command` from index `i` on: the buffer and `argv`, whose entries
are indices of the buffer. -/
def praseLoop : Nat → Nat → Bool → List UInt8 → List Nat → List UInt8 × List Nat
  | 0, _, _, buff, argv => (buff, argv)
  | n + 1, i, space, buff, argv =>
    if buff.getD i 0 = 0 then (buff, argv)
    else if buff.getD i 0 = spaceChar then praseLoop n (i + 1) true (buff.set i 0) argv
    else praseLoop n (i + 1) false buff (if space then argv ++ [i] else argv)

/-- `prase_command` -/
def praseCommand (buff : List UInt8) (buffSize : Nat) : List UInt8 × List Nat :=
  praseLoop buffSize 0 true buff []

/-- The string at an index of the buffer. -/
def stringAt (buff : List UInt8) (i : Nat) : CString where
  bytes := (buff.drop i).takeWhile (· ≠ 0)
  nonzero h := by simpa using List.mem_takeWhile_imp h

namespace CommandLine

/-- The array `buff` of the shell. -/
def buffer (l : CommandLine) : List UInt8 :=
  l.line ++ l.takenBack ++ List.replicate (100 - (l.line ++ l.takenBack).length) 0

/-- The strings of `argv` after `prase_command`. -/
def argv (l : CommandLine) : List CString :=
  let (buff, argv) := praseCommand l.buffer l.line.length
  argv.map (stringAt buff)

end CommandLine

/-! ## The words -/

section Words

variable {line : List UInt8}

/-- What the loop leaves of a character. -/
def blank (b : UInt8) : UInt8 := if b = spaceChar then 0 else b

/-- The places of the words from index `i` on. -/
def places : Bool → Nat → List UInt8 → List Nat
  | _, _, [] => []
  | space, i, b :: line =>
    if b = spaceChar then places true (i + 1) line
    else if space then i :: places false (i + 1) line else places false (i + 1) line

/-- The words, with `post` behind the line. -/
def texts (post : List UInt8) : Bool → List UInt8 → List (List UInt8)
  | _, [] => []
  | space, b :: line =>
    if b = spaceChar then texts post true line
    else if space then
      ((b :: line).map blank ++ post).takeWhile (· ≠ 0) :: texts post false line
    else texts post false line

/-- The loop blanks the spaces and finds the words. -/
theorem praseLoop_eq (pre post : List UInt8) (hline : 0 ∉ line) (space : Bool) (argv : List Nat) :
    praseLoop line.length pre.length space (pre ++ (line ++ post)) argv =
      (pre ++ (line.map blank ++ post), argv ++ places space pre.length line) := by
  induction line generalizing pre space argv with
  | nil => simp [praseLoop, places]
  | cons b line ih =>
    rw [List.mem_cons, not_or] at hline
    have hget : (pre ++ (b :: line ++ post)).getD pre.length 0 = b := by
      rw [List.getD_append_right _ _ _ _ le_rfl, Nat.sub_self]
      rfl
    have hlen : ∀ x : UInt8, pre.length + 1 = (pre ++ [x]).length := fun x => by simp
    rw [List.length_cons, praseLoop, hget, if_neg (Ne.symm hline.1), places]
    split
    · rename_i hspace
      have hset : (pre ++ (b :: line ++ post)).set pre.length 0 =
          (pre ++ [0]) ++ (line ++ post) := by
        rw [List.set_append_right _ _ le_rfl, Nat.sub_self]
        simp
      rw [hset, hlen 0, ih (pre ++ [0]) hline.2]
      simp [blank, hspace]
    · rename_i hspace
      have hnext : pre ++ (b :: line ++ post) = (pre ++ [b]) ++ (line ++ post) := by simp
      rw [hnext, hlen b, ih (pre ++ [b]) hline.2]
      cases space <;> simp [blank, hspace]

/-- The strings at the places are the words. -/
theorem map_places (pre post : List UInt8) (space : Bool) :
    (places space pre.length line).map (fun i =>
      ((pre ++ (line.map blank ++ post)).drop i).takeWhile (· ≠ 0)) = texts post space line := by
  induction line generalizing pre space with
  | nil => rfl
  | cons b line ih =>
    have hnext : ∀ space, (places space (pre.length + 1) line).map (fun i =>
        ((pre ++ ((b :: line).map blank ++ post)).drop i).takeWhile (· ≠ 0)) =
        texts post space line := by
      intro space
      have hih := ih (pre ++ [blank b]) space
      rw [List.length_append, List.length_singleton, List.append_assoc] at hih
      exact hih
    rw [places, texts]
    split
    · exact hnext true
    · cases space with
      | true =>
        rw [if_pos rfl, if_pos rfl, List.map_cons, hnext false, List.drop_left]
      | false => exact hnext false

/-- A word is not empty, and its characters are from the line or from behind it. -/
theorem texts_chars (post : List UInt8) (hline : 0 ∉ line) (space : Bool) :
    ∀ t ∈ texts post space line, t ≠ [] ∧ ∀ b ∈ t, b ≠ 0 ∧ (b ∈ line ∨ b ∈ post) := by
  induction line generalizing space with
  | nil => exact fun t ht => absurd ht List.not_mem_nil
  | cons b line ih =>
    rw [List.mem_cons, not_or] at hline
    have hrest : ∀ space, ∀ t ∈ texts post space line,
        t ≠ [] ∧ ∀ x ∈ t, x ≠ 0 ∧ (x ∈ b :: line ∨ x ∈ post) := by
      intro space t ht
      obtain ⟨hne, hchars⟩ := ih hline.2 space t ht
      exact ⟨hne, fun x hx => (hchars x hx).imp_right fun h => h.imp_left (List.mem_cons_of_mem _)⟩
    rw [texts]
    split
    · exact hrest true
    · rename_i hspace
      cases space with
      | false => exact hrest false
      | true =>
        intro t ht
        rcases List.mem_cons.mp ht with rfl | ht
        · have hhead : blank b = b := if_neg hspace
          constructor
          · rw [List.map_cons, hhead, List.cons_append,
              List.takeWhile_cons_of_pos (by simpa using Ne.symm hline.1)]
            exact List.cons_ne_nil _ _
          · intro x hx
            have hne : x ≠ 0 := by simpa using List.mem_takeWhile_imp hx
            refine ⟨hne, ?_⟩
            rcases List.mem_append.mp ((List.takeWhile_subset _) hx) with hx | hx
            · obtain ⟨y, hy, rfl⟩ := List.mem_map.mp hx
              unfold blank at hne ⊢
              split at hne
              · exact absurd rfl hne
              · rename_i hy'
                rw [if_neg hy']
                exact Or.inl hy
            · exact Or.inr hx
        · exact hrest false t ht

/-- The words with their terminating zeros are not longer than the line with its own and
what stands behind it.  Inside of a word its rest counts, too. -/
theorem sum_texts (post : List UInt8) (hline : 0 ∉ line) :
    ((texts post true line).map (·.length + 1)).sum ≤
        line.length + (post.takeWhile (· ≠ 0)).length + 1 ∧
      ((line.map blank ++ post).takeWhile (· ≠ 0)).length +
        ((texts post false line).map (·.length + 1)).sum ≤
        line.length + (post.takeWhile (· ≠ 0)).length := by
  induction line with
  | nil => simp [texts]
  | cons b line ih =>
    rw [List.mem_cons, not_or] at hline
    obtain ⟨htrue, hfalse⟩ := ih hline.2
    by_cases hspace : b = spaceChar
    · have hnone : ((b :: line).map blank ++ post).takeWhile (· ≠ 0) = [] := by
        rw [List.map_cons, List.cons_append, show blank b = 0 from if_pos hspace]
        rfl
      rw [texts, if_pos hspace, texts, if_pos hspace, hnone, List.length_cons]
      simp only [List.length_nil]
      omega
    · have hword : ((b :: line).map blank ++ post).takeWhile (· ≠ 0) =
          b :: (line.map blank ++ post).takeWhile (· ≠ 0) := by
        rw [List.map_cons, show blank b = b from if_neg hspace, List.cons_append,
          List.takeWhile_cons_of_pos (by simpa using Ne.symm hline.1)]
      rw [texts, if_neg hspace, if_pos rfl, texts, if_neg hspace, if_neg (by decide), hword]
      simp only [List.map_cons, List.sum_cons, List.length_cons]
      omega

end Words

/-! ## The arguments of a line -/

section Arguments

variable {N : Nat} {L : List (List UInt8)}

/-- Two words with their terminating zeros fit into the bound. -/
theorem pairwise_length (h : (L.map (·.length + 1)).sum ≤ N) :
    L.Pairwise fun s t => s.length + t.length + 2 ≤ N := by
  induction L with
  | nil => exact List.Pairwise.nil
  | cons s L ih =>
    rw [List.map_cons, List.sum_cons] at h
    refine List.pairwise_cons.mpr ⟨fun t ht => ?_, ih (by omega)⟩
    have hle := List.le_sum_of_mem
      (List.mem_map_of_mem (f := fun t : List UInt8 => t.length + 1) ht)
    omega

theorem two_mul_length_le (hne : ∀ t ∈ L, t ≠ []) :
    2 * L.length ≤ (L.map (·.length + 1)).sum := by
  induction L with
  | nil => exact Nat.zero_le _
  | cons s L ih =>
    have hpos := List.length_pos_of_ne_nil (hne s List.mem_cons_self)
    have hrest := ih fun t ht => hne t (List.mem_cons_of_mem _ ht)
    rw [List.map_cons, List.sum_cons, List.length_cons]
    omega

variable (l : CommandLine)

theorem CommandLine.zero_notMem : 0 ∉ l.line := by
  intro hmem
  have hpos := l.chars 0 (List.mem_append_left _ hmem)
  revert hpos
  decide

/-- What stands behind the line. -/
def CommandLine.behind : List UInt8 :=
  l.takenBack ++ List.replicate (100 - (l.line ++ l.takenBack).length) 0

/-- The arguments are the words. -/
theorem CommandLine.argv_bytes : l.argv.map CString.bytes = texts l.behind true l.line := by
  have hloop := praseLoop_eq [] l.behind l.zero_notMem true []
  have hbuffer : l.buffer = [] ++ (l.line ++ l.behind) := List.append_assoc _ _ _
  unfold CommandLine.argv praseCommand
  rw [hbuffer, show (0 : Nat) = ([] : List UInt8).length from rfl, hloop,
    ← map_places [] l.behind true]
  dsimp only
  rw [List.map_map, List.nil_append]
  rfl

theorem CommandLine.takeWhile_behind :
    (l.behind.takeWhile (· ≠ 0)).length ≤ l.takenBack.length := by
  unfold CommandLine.behind
  generalize 100 - (l.line ++ l.takenBack).length = n
  generalize l.takenBack = stale
  induction stale with
  | nil => simp
  | cons b stale ih =>
    rw [List.cons_append, List.takeWhile_cons]
    split
    · exact Nat.succ_le_succ ih
    · exact Nat.zero_le _

theorem CommandLine.sum_le :
    ((l.argv.map CString.bytes).map (·.length + 1)).sum ≤ 100 := by
  have hsum := (sum_texts l.behind l.zero_notMem).1
  have hbehind := l.takeWhile_behind
  have hlen := l.length_le
  rw [List.length_append] at hlen
  rw [l.argv_bytes]
  omega

theorem CommandLine.argText_mem {i : Nat} (hi : i < l.argv.length) :
    argText l.argv i ∈ texts l.behind true l.line := by
  have hi' : i < (l.argv.map CString.bytes).length := by rwa [List.length_map]
  unfold argText
  rw [List.getD_eq_getElem _ _ hi', ← l.argv_bytes]
  exact List.getElem_mem _

theorem CommandLine.nonempty : ∀ i < l.argv.length, argText l.argv i ≠ [] :=
  fun _ hi => (texts_chars l.behind l.zero_notMem true _ (l.argText_mem hi)).1

theorem lt_of_charValue_pos {b : UInt8} (h : 0 < CString.charValue b) : b < 128 := by
  have hvalue : CString.charValue b = b.toBitVec.toInt := rfl
  rw [hvalue, BitVec.toInt_eq_toNat_cond] at h
  have hlt : b.toNat < 2 ^ 8 := b.toNat_lt
  have hnat : b.toBitVec.toNat = b.toNat := rfl
  rw [hnat] at h
  apply UInt8.lt_iff_toNat_lt.mpr
  show b.toNat < 128
  split at h <;> omega

theorem CommandLine.ascii (i : Nat) : ∀ b ∈ argText l.argv i, b < 128 := by
  intro b hb
  rcases Nat.lt_or_ge i l.argv.length with hi | hi
  · obtain ⟨hne, hmem⟩ := (texts_chars l.behind l.zero_notMem true _ (l.argText_mem hi)).2 b hb
    apply lt_of_charValue_pos
    rcases hmem with hmem | hmem
    · exact l.chars b (List.mem_append_left _ hmem)
    · rcases List.mem_append.mp hmem with hmem | hmem
      · exact l.chars b (List.mem_append_right _ hmem)
      · exact absurd (List.eq_of_mem_replicate hmem) hne
  · unfold argText at hb
    rw [List.getD_eq_default _ _ (by rwa [List.length_map])] at hb
    exact absurd hb List.not_mem_nil

/-- A line has at most 50 words, and one of them at most is long. -/
theorem CommandLine.oneLong : OneLong l.argv := by
  have hsum := l.sum_le
  have hpairs := List.pairwise_iff_getElem.mp (pairwise_length hsum)
  have hlen : ∀ {i}, i < l.argv.length → i < (l.argv.map CString.bytes).length :=
    fun hi => by rwa [List.length_map]
  constructor
  · have hcount := two_mul_length_le (L := l.argv.map CString.bytes) fun t ht =>
      (texts_chars l.behind l.zero_notMem true t (l.argv_bytes ▸ ht)).1
    rw [List.length_map] at hcount
    omega
  · intro i hi
    have hle := List.le_sum_of_mem (List.mem_map_of_mem
      (f := fun t : List UInt8 => t.length + 1) (List.getElem_mem (hlen hi)))
    rw [← List.getD_eq_getElem _ [] (hlen hi)] at hle
    show ((l.argv.map CString.bytes).getD i []).length < 2 * argSize
    rw [argSize]
    omega
  · intro i j hij hj
    have hi : i < l.argv.length := by omega
    have hpair := hpairs i j (hlen hi) (hlen hj) hij
    rw [← List.getD_eq_getElem _ [] (hlen hi), ← List.getD_eq_getElem _ [] (hlen hj)] at hpair
    show ((l.argv.map CString.bytes).getD i []).length < argSize ∨
      ((l.argv.map CString.bytes).getD j []).length < argSize
    rw [argSize]
    omega

end Arguments

/-! ## From the shell to the new process -/

theorem isSlotTop_newKernelStack {used : Nat → Bool} (h : (newKernelStack used).1 ≠ 0) :
    IsSlotTop (newKernelStack used).1 := by
  cases hfind : (List.range numMaxTask).find? fun i => i ≠ 0 ∧ used i = false with
  | none =>
    rw [newKernelStack, hfind] at h
    exact absurd rfl h
  | some m =>
    rw [newKernelStack, hfind]
    exact ⟨m, List.mem_range.mp (List.mem_of_find?_eq_some hfind), rfl⟩

/-- The stack pointer of a new process is the address of its kernel context. -/
theorem newProcess_kernelSp (k : Core) (argc : Nat) (hargc : FrameFits argc)
    (h : (newKernelStack k.kernelStackUsed).1 ≠ 0) :
    (k.newProcess argc).1 = kernelContext (newKernelStack k.kernelStackUsed).1 argc := by
  have hbounds := (isSlotTop_newKernelStack h).bounds
  show (2 ^ 64 + (newKernelStack k.kernelStackUsed).1 -
    (2 * regsContextSize + 64 * argc) % 2 ^ 64) % 2 ^ 64 = _
  unfold FrameFits at hargc
  unfold kernelContext argsArea userContext
  simp only [regsContextSize, argSize, stackSize] at hargc hbounds ⊢
  omega

/-- For every line and every kernel stack that is found, the arguments are passed exactly
when they fit. -/
theorem arguments_passed_iff (c : SpawnConsts) {used : Nat → Bool}
    (hstack : (newKernelStack used).1 ≠ 0) (l : CommandLine) :
    PassesArguments c (newKernelStack used).1 l.argv ↔ FitsSlots l.argv :=
  ⟨fits_of_passes (isSlotTop_newKernelStack hstack) l.oneLong l.nonempty l.ascii,
    passes_of_fits c (isSlotTop_newKernelStack hstack) l.oneLong⟩

/-- `exec 1 a` -/
def execLine : CommandLine where
  line := [101, 120, 101, 99, 32, 49, 32, 97]
  takenBack := []
  chars := by decide +kernel
  length_le := by decide

theorem exec_passed :
    PassesArguments { entryPoint := 0, initialCp0Status := 0, startUpReturn := 0 }
      (newKernelStack fun i => i = 0).1 execLine.argv :=
  (arguments_passed_iff _ (by decide) execLine).mpr (by decide +kernel)

/-- `exec` and sixteen times the word `1`. -/
def manyWords : CommandLine where
  line := [101, 120, 101, 99] ++ (List.replicate 16 [32, 49]).flatten
  takenBack := []
  chars := by decide +kernel
  length_le := by decide

/-- The pointer to the last word is stored at `USER_STACK_TOP`. -/
theorem many_words_not_passed :
    ¬ PassesArguments { entryPoint := 0, initialCp0Status := 0, startUpReturn := 0 }
      (newKernelStack fun i => i = 0).1 manyWords.argv := by
  intro hpasses
  have hfits := fits_of_passes (isSlotTop_newKernelStack (by decide)) manyWords.oneLong
    manyWords.nonempty manyWords.ascii hpasses
  revert hfits
  decide +kernel

end MipsOs.System
