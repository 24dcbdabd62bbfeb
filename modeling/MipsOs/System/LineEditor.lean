import MipsOs.System.Shell

/-!
# The line that the user sees

`get_command` of `test/test_shell.c` reads characters into a buffer.  A backspace
moves its pointer back and leaves the character where it is.  The length that
`get_command` returns ends the loop of `prase_command`, but the words are strings
of the buffer, and the last one goes on to the next zero.

So a command runs as the user sees it if the line ends with a space, which becomes
the zero behind the last word, or if no character that was taken back is left
behind the line.  `runs_line_iff` says that it runs so in no other case.

What the user types is at most 99 characters long at any time; `get_command` does
not check that it stays inside of the buffer.
-/

namespace MipsOs.System

open MipsOs.Lib

/-! ## The code -/

/-- `'/'` -/
def slashChar : UInt8 := 47

/-- `'\r'` or `'\n'` -/
def isEnter (ch : UInt8) : Bool := ch = 13 ∨ ch = 10

/-- `'\b'` or 127 -/
def isBackspace (ch : UInt8) : Bool := ch = 8 ∨ ch = 127

/-- The loop of `get_command` over the answers of `sys_serial_read`: the buffer,
`p_buff` and the input that is left.  `base` is the index of `buff`.  An input that
ends leaves the shell waiting. -/
def getLoop (base : Nat) : List UInt8 → List UInt8 → Nat →
    Option (List UInt8 × Nat × List UInt8)
  | [], _, _ => none
  | ch :: input, buff, pBuff =>
    if 0 < CString.charValue ch then
      if isEnter ch then some (buff, pBuff, input)
      else if isBackspace ch then
        getLoop base input buff (if pBuff > base then pBuff - 1 else pBuff)
      else getLoop base input (buff.set pBuff ch) (pBuff + 1)
    else getLoop base input buff pBuff

/-- `get_command(buff + base, sizeof(buff) - base, ..)` -/
def getCommand (buff : List UInt8) (base : Nat) (input : List UInt8) :
    Option (List UInt8 × Nat × List UInt8) := do
  let cleared := buff.take base ++ List.replicate (buff.length - base) 0
  let (buff, pBuff, input) ← getLoop base input cleared base
  return (buff, pBuff - base, input)

/-- The loop of `test_shell` that reads on behind a `'/'`.  With an empty line it
reads in front of the buffer. -/
def continueLine : Nat → List UInt8 → Nat → List UInt8 →
    Option (List UInt8 × Nat × List UInt8)
  | 0, _, _, _ => none
  | fuel + 1, buff, cmdLen, input =>
    if cmdLen = 0 then none
    else if buff.getD (cmdLen - 1) 0 = slashChar then do
      let (buff, more, input) ← getCommand (buff.set (cmdLen - 1) spaceChar) cmdLen input
      continueLine fuel buff (cmdLen + more) input
    else some (buff, cmdLen, input)

/-- One round of `test_shell`: `argc`, the strings of `argv` and the input that is
left.  `old` is what the buffer holds from the command before. -/
def shellCommand (old input : List UInt8) : Option (Nat × List CString × List UInt8) := do
  let (buff, cmdLen, input') ← getCommand old 0 input
  let (buff, cmdLen, rest) ← continueLine (input.length + 1) buff cmdLen input'
  let (buff, argv) := praseCommand buff cmdLen
  return (argv.length, argv.map (stringAt buff), rest)

/-! ## What the user sees -/

/-- One key: a character, a backspace, or a read that finds none. -/
def editKey (line : List UInt8) (ch : UInt8) : List UInt8 :=
  if 0 < CString.charValue ch then
    if isBackspace ch then line.dropLast else line ++ [ch]
  else line

/-- The line after the keys. -/
def edit (keys : List UInt8) : List UInt8 := keys.foldl editKey []

/-- The maximal runs of characters that are not spaces. -/
def words (line : List UInt8) : List (List UInt8) :=
  (line.splitOnP fun b => b = spaceChar).filter fun w => w ≠ []

/-- The shell runs the words of the line. -/
def RunsLine (old keys : List UInt8) (enter : UInt8) (rest : List UInt8) : Prop :=
  ∃ argv, shellCommand old (keys ++ enter :: rest) =
      some ((words (edit keys)).length, argv, rest) ∧
    argv.map CString.bytes = words (edit keys)

/-! ## The words of a line -/

section Words

variable {line post : List UInt8}

/-- A zero in the first part stops the string there. -/
theorem takeWhile_append_of_mem {xs : List UInt8} (h : 0 ∈ xs) (post : List UInt8) :
    (xs ++ post).takeWhile (· ≠ 0) = xs.takeWhile (· ≠ 0) := by
  induction xs with
  | nil => cases h
  | cons x xs ih =>
    rw [List.cons_append, List.takeWhile_cons, List.takeWhile_cons]
    split
    · rename_i hx
      rcases List.mem_cons.mp h with rfl | hmem
      · exact absurd hx (by decide)
      · rw [ih hmem]
    · rfl

theorem takeWhile_append_of_behind (hpost : post.takeWhile (· ≠ 0) = []) (xs : List UInt8) :
    (xs ++ post).takeWhile (· ≠ 0) = xs.takeWhile (· ≠ 0) := by
  induction xs with
  | nil => rw [List.nil_append, hpost, List.takeWhile_nil]
  | cons x xs ih => rw [List.cons_append, List.takeWhile_cons, List.takeWhile_cons, ih]

/-- With nothing behind the line the strings are the runs. -/
theorem texts_nil (line : List UInt8) (hline : 0 ∉ line) :
    texts [] true line = words line ∧
      texts [] false line =
        ((line.splitOnP fun b => b = spaceChar).tail).filter (fun w => w ≠ []) ∧
      (line.splitOnP fun b => b = spaceChar).head? =
        some ((line.map blank ++ []).takeWhile (· ≠ 0)) := by
  induction line with
  | nil => exact ⟨rfl, rfl, rfl⟩
  | cons b line ih =>
    rw [List.mem_cons, not_or] at hline
    obtain ⟨htrue, hfalse, hhead⟩ := ih hline.2
    unfold words at htrue ⊢
    rw [List.splitOnP_cons_eq_if_modifyHead]
    obtain ⟨w, ws, hsplit⟩ := List.exists_cons_of_ne_nil
      (List.splitOnP_ne_nil (fun b => decide (b = spaceChar)) line)
    rw [hsplit] at htrue hfalse hhead ⊢
    obtain rfl := Option.some.inj hhead
    by_cases hspace : b = spaceChar
    · have hstop : ((b :: line).map blank ++ []).takeWhile (· ≠ 0) = [] := by
        rw [List.map_cons, List.cons_append, show blank b = 0 from if_pos hspace]
        rfl
      rw [texts, if_pos hspace, texts, if_pos hspace, hstop, htrue]
      simp [hspace]
    · have hgo : ((b :: line).map blank ++ []).takeWhile (· ≠ 0) =
          b :: (line.map blank ++ []).takeWhile (· ≠ 0) := by
        rw [List.map_cons, show blank b = b from if_neg hspace, List.cons_append,
          List.takeWhile_cons_of_pos (by simpa using Ne.symm hline.1)]
      simp only [texts, if_neg hspace, if_true, Bool.false_eq_true, if_false, hgo, hfalse]
      simp [hspace]

/-- Nothing behind the line, or a space at its end: the strings are those of the
line alone. -/
theorem texts_eq_of_behind (hpost : post.takeWhile (· ≠ 0) = []) (space : Bool) :
    texts post space line = texts [] space line := by
  induction line generalizing space with
  | nil => rfl
  | cons b line ih =>
    rw [texts, texts, ih, ih, takeWhile_append_of_behind hpost, List.append_nil]

theorem texts_eq_of_space (hlast : line.getLast? = some spaceChar) (post : List UInt8)
    (space : Bool) : texts post space line = texts [] space line := by
  induction line generalizing space with
  | nil => rfl
  | cons b line ih =>
    have hstop : (0 : UInt8) ∈ (b :: line).map blank :=
      List.mem_map.mpr ⟨spaceChar, List.mem_of_getLast? hlast, if_pos rfl⟩
    by_cases hnil : line = []
    · obtain rfl : b = spaceChar := by
        rw [hnil] at hlast
        exact Option.some.inj hlast
      rw [hnil]
      simp [texts]
    · have hrest : line.getLast? = some spaceChar := by
        rwa [List.getLast?_cons_of_ne_nil hnil] at hlast
      rw [texts, texts, ih hrest, ih hrest, takeWhile_append_of_mem hstop, List.append_nil]

/-- The number of characters. -/
def letters (L : List (List UInt8)) : Nat := (L.map List.length).sum

@[simp] theorem letters_cons (w : List UInt8) (L : List (List UInt8)) :
    letters (w :: L) = w.length + letters L := by
  simp [letters]

/-- At the end of a line that does not end with a space the last string takes in what
stands behind the line. -/
theorem letters_texts (post : List UInt8) (hline : 0 ∉ line)
    (hlast : line.getLast? ≠ some spaceChar) :
    (line ≠ [] → letters (texts post true line) =
        letters (texts [] true line) + (post.takeWhile (· ≠ 0)).length) ∧
      ((line.map blank ++ post).takeWhile (· ≠ 0)).length + letters (texts post false line) =
        ((line.map blank ++ []).takeWhile (· ≠ 0)).length + letters (texts [] false line) +
          (post.takeWhile (· ≠ 0)).length := by
  induction line with
  | nil => simp [texts, letters]
  | cons b line ih =>
    rw [List.mem_cons, not_or] at hline
    have hrest : line.getLast? ≠ some spaceChar := by
      cases line with
      | nil => simp
      | cons c line => rwa [List.getLast?_cons_cons] at hlast
    obtain ⟨htrue, hfalse⟩ := ih hline.2 hrest
    by_cases hspace : b = spaceChar
    · have hne : line ≠ [] := by
        rintro rfl
        exact hlast (by rw [hspace]; rfl)
      have hstop : ∀ post, ((b :: line).map blank ++ post).takeWhile (· ≠ 0) = [] := by
        intro post
        rw [List.map_cons, List.cons_append, show blank b = 0 from if_pos hspace]
        rfl
      have hsame := htrue hne
      simp only [texts, if_pos hspace, hstop, List.length_nil]
      exact ⟨fun _ => hsame, by omega⟩
    · have hgo : ∀ post, ((b :: line).map blank ++ post).takeWhile (· ≠ 0) =
          b :: (line.map blank ++ post).takeWhile (· ≠ 0) := by
        intro post
        rw [List.map_cons, show blank b = b from if_neg hspace, List.cons_append,
          List.takeWhile_cons_of_pos (by simpa using Ne.symm hline.1)]
      simp only [texts, if_neg hspace, hgo, List.length_cons, letters_cons, if_true,
        Bool.false_eq_true, if_false]
      exact ⟨fun _ => by omega, by omega⟩

/-- The strings are the runs of the line if and only if nothing stands behind the
line or it ends with a space. -/
theorem texts_eq_words_iff (hline : 0 ∉ line) (hne : line ≠ []) :
    texts post true line = words line ↔
      line.getLast? = some spaceChar ∨ post.takeWhile (· ≠ 0) = [] := by
  rw [← (texts_nil line hline).1]
  constructor
  · intro h
    by_cases hlast : line.getLast? = some spaceChar
    · exact Or.inl hlast
    · have hletters := (letters_texts post hline hlast).1 hne
      rw [h] at hletters
      exact Or.inr (List.length_eq_zero_iff.mp (by omega))
  · rintro (hlast | hpost)
    · exact texts_eq_of_space hlast post true
    · exact texts_eq_of_behind hpost true

end Words

/-! ## What the keys leave in the buffer -/

/-- The line, and behind it the characters that were taken back. -/
structure Typed where
  line : List UInt8
  takenBack : List UInt8

namespace Typed

/-- A backspace moves a character behind the line, and a character that is typed
overwrites the next one there. -/
def key (t : Typed) (ch : UInt8) : Typed :=
  if 0 < CString.charValue ch then
    if isBackspace ch then ⟨t.line.dropLast, t.line.getLast?.toList ++ t.takenBack⟩
    else ⟨t.line ++ [ch], t.takenBack.tail⟩
  else t

/-- A sequence of keys. -/
def keys (t : Typed) (input : List UInt8) : Typed := input.foldl key t

/-- The number of characters in the buffer. -/
def length (t : Typed) : Nat := (t.line ++ t.takenBack).length

/-- The array `buff` of the shell, with zeros behind the characters. -/
def buffer (t : Typed) : List UInt8 :=
  t.line ++ t.takenBack ++ List.replicate (100 - (t.line ++ t.takenBack).length) 0

/-- No character is lost before it is overwritten: the length is that of the longest
line so far. -/
theorem length_key (t : Typed) (ch : UInt8) :
    (t.key ch).length = max t.length (t.key ch).line.length := by
  obtain ⟨line, takenBack⟩ := t
  unfold key length
  split
  · split
    · rcases List.eq_nil_or_concat line with rfl | ⟨line, b, rfl⟩
      · simp
      · simp only [List.concat_eq_append, List.dropLast_concat, List.getLast?_concat,
          Option.toList_some, List.length_append, List.length_singleton]
        omega
    · simp only [List.length_append, List.length_tail, List.length_singleton]
      omega
  · simp only [List.length_append]
    omega

theorem length_keys_le (t : Typed) (input : List UInt8) : t.length ≤ (t.keys input).length := by
  induction input generalizing t with
  | nil => exact le_rfl
  | cons ch input ih =>
    calc t.length ≤ (t.key ch).length := by
          rw [length_key]
          exact le_max_left _ _
      _ ≤ (t.keys (ch :: input)).length := ih (t.key ch)

theorem line_keys (t : Typed) (input : List UInt8) :
    (t.keys input).line = input.foldl editKey t.line := by
  induction input generalizing t with
  | nil => rfl
  | cons ch input ih =>
    have hkey : (t.key ch).line = editKey t.line ch := by
      unfold key editKey
      split
      · split <;> rfl
      · rfl
    rw [List.foldl_cons, ← hkey]
    exact ih (t.key ch)

/-- The characters are above zero. -/
theorem chars_keys (t : Typed) (input : List UInt8)
    (h : ∀ b ∈ t.line ++ t.takenBack, 0 < CString.charValue b) :
    ∀ b ∈ (t.keys input).line ++ (t.keys input).takenBack, 0 < CString.charValue b := by
  induction input generalizing t with
  | nil => exact h
  | cons ch input ih =>
    refine ih (t.key ch) fun b hb => ?_
    unfold key at hb
    split at hb
    · rename_i hpos
      split at hb
      · apply h b
        rcases List.eq_nil_or_concat t.line with hline | ⟨line, c, hline⟩
        · rw [hline] at hb ⊢
          exact hb
        · rw [hline] at hb ⊢
          simpa using hb
      · rcases List.mem_append.mp hb with hb | hb
        · rcases List.mem_append.mp hb with hb | hb
          · exact h b (List.mem_append_left _ hb)
          · rwa [List.mem_singleton.mp hb]
        · exact h b (List.mem_append_right _ (List.mem_of_mem_tail hb))
    · exact h b hb

/-- `*p_buff = ch` -/
theorem set_buffer (line takenBack : List UInt8) (ch : UInt8)
    (hfit : (line ++ takenBack).length ≤ 99) :
    (Typed.mk line takenBack).buffer.set line.length ch =
      (Typed.mk (line ++ [ch]) takenBack.tail).buffer := by
  unfold buffer
  rw [List.append_assoc, List.set_append_right _ _ le_rfl, Nat.sub_self]
  cases takenBack with
  | nil =>
    rw [List.append_nil] at hfit
    have hroom : 100 - line.length = (99 - line.length) + 1 := by omega
    simp [hroom, List.replicate_succ]
  | cons b takenBack => simp

/-- `p_buff --` leaves the buffer as it is. -/
theorem buffer_backspace (line takenBack : List UInt8) :
    (Typed.mk line.dropLast (line.getLast?.toList ++ takenBack)).buffer =
      (Typed.mk line takenBack).buffer := by
  rcases List.eq_nil_or_concat line with rfl | ⟨line, b, rfl⟩
  · rfl
  · unfold buffer
    simp only [List.concat_eq_append, List.dropLast_concat, List.getLast?_concat,
      Option.toList_some, List.append_assoc]

theorem getLoop_key (t : Typed) {ch : UInt8} (hch : isEnter ch = false) (input : List UInt8)
    (hfit : t.length ≤ 99) :
    getLoop 0 (ch :: input) t.buffer t.line.length =
      getLoop 0 input (t.key ch).buffer (t.key ch).line.length := by
  rw [getLoop, hch]
  unfold key
  split
  · by_cases hback : isBackspace ch = true
    · have hlast : (if t.line.length > 0 then t.line.length - 1 else t.line.length) =
          t.line.dropLast.length := by
        rw [List.length_dropLast]
        split <;> omega
      simp only [hback, if_true, Bool.false_eq_true, if_false]
      rw [buffer_backspace, hlast]
    · simp only [hback, Bool.false_eq_true, if_false]
      rw [set_buffer _ _ _ hfit, List.length_append, List.length_singleton]
  · rfl

/-- The loop of `get_command` leaves what was typed. -/
theorem getLoop_keys (t : Typed) {input : List UInt8}
    (hinput : ∀ ch ∈ input, isEnter ch = false) {enter : UInt8}
    (henter : isEnter enter = true) (rest : List UInt8) (hfit : (t.keys input).length ≤ 99) :
    getLoop 0 (input ++ enter :: rest) t.buffer t.line.length =
      some ((t.keys input).buffer, (t.keys input).line.length, rest) := by
  induction input generalizing t with
  | nil =>
    have hpos : 0 < CString.charValue enter := by
      rcases of_decide_eq_true henter with rfl | rfl <;> decide
    rw [List.nil_append, getLoop, if_pos hpos, if_pos henter]
    rfl
  | cons ch input ih =>
    have hle := (length_keys_le t (ch :: input)).trans hfit
    rw [List.cons_append, getLoop_key t (hinput ch List.mem_cons_self) _ hle]
    exact ih (t.key ch) (fun x hx => hinput x (List.mem_cons_of_mem _ hx)) hfit

end Typed

/-! ## The command -/

section Command

variable {keys : List UInt8}

/-- What the keys of a command leave. -/
def typed (keys : List UInt8) : Typed := (Typed.mk [] []).keys keys

theorem typed_line (keys : List UInt8) : (typed keys).line = edit keys :=
  Typed.line_keys ⟨[], []⟩ keys

/-- The length is that of the longest line while it was typed. -/
theorem typed_length_le_iff (keys : List UInt8) (n : Nat) :
    (typed keys).length ≤ n ↔ ∀ p, p <+: keys → (edit p).length ≤ n := by
  induction keys using List.reverseRecOn with
  | nil =>
    simp only [List.prefix_nil, forall_eq]
    exact Iff.rfl
  | append_singleton keys ch ih =>
    have hkey : typed (keys ++ [ch]) = (typed keys).key ch := by
      unfold typed Typed.keys
      rw [List.foldl_append]
      rfl
    rw [hkey, Typed.length_key, max_le_iff, ih, ← hkey, typed_line]
    simp only [List.prefix_concat_iff, or_imp, forall_and, forall_eq]
    exact and_comm

/-- The buffer after `get_command` is one of `CommandLine`. -/
def typedCommand (keys : List UInt8) (hfit : (typed keys).length ≤ 99) : CommandLine where
  line := (typed keys).line
  takenBack := (typed keys).takenBack
  chars := Typed.chars_keys ⟨[], []⟩ keys fun _ hb => absurd hb List.not_mem_nil
  length_le := hfit

/-- A zero stands behind the line if and only if nothing was taken back. -/
theorem CommandLine.takeWhile_behind_eq_nil_iff (l : CommandLine) :
    l.behind.takeWhile (· ≠ 0) = [] ↔ l.takenBack = [] := by
  have hchars : ∀ b ∈ l.takenBack, b ≠ 0 := by
    rintro b hb rfl
    exact absurd (l.chars 0 (List.mem_append_right _ hb)) (by decide)
  unfold CommandLine.behind
  generalize 100 - (l.line ++ l.takenBack).length = n
  cases htaken : l.takenBack with
  | nil => cases n <;> simp [List.replicate_succ]
  | cons b takenBack =>
    have hb : b ≠ 0 := hchars b (htaken ▸ List.mem_cons_self)
    simp [hb]

/-- One round of the shell cuts what was typed. -/
theorem shellCommand_typed {old rest : List UInt8} {enter : UInt8} (hold : old.length = 100)
    (hkeys : ∀ ch ∈ keys, isEnter ch = false) (henter : isEnter enter = true)
    (hfit : (typed keys).length ≤ 99) (hne : edit keys ≠ [])
    (hslash : (edit keys).getLast? ≠ some slashChar) :
    shellCommand old (keys ++ enter :: rest) =
      some ((typedCommand keys hfit).argv.length, (typedCommand keys hfit).argv, rest) := by
  have hget : getCommand old 0 (keys ++ enter :: rest) =
      some ((typedCommand keys hfit).buffer, (edit keys).length, rest) := by
    have hloop : getLoop 0 (keys ++ enter :: rest) (old.take 0 ++ List.replicate (100 - 0) 0) 0 =
        some ((typedCommand keys hfit).buffer, (typed keys).line.length, rest) :=
      Typed.getLoop_keys ⟨[], []⟩ hkeys henter rest hfit
    unfold getCommand
    rw [hold, ← typed_line]
    simp only [hloop]
    rfl
  have hgo : continueLine ((keys ++ enter :: rest).length + 1) (typedCommand keys hfit).buffer
      (edit keys).length rest =
      some ((typedCommand keys hfit).buffer, (edit keys).length, rest) := by
    have hlt : (edit keys).length - 1 < (edit keys).length := by
      have hpos := List.length_pos_of_ne_nil hne
      omega
    have hlast : (typedCommand keys hfit).buffer.getD ((edit keys).length - 1) 0 ≠ slashChar := by
      have hbuffer : (typedCommand keys hfit).buffer =
          edit keys ++ (typedCommand keys hfit).behind := by
        rw [← typed_line]
        exact List.append_assoc _ _ _
      rw [hbuffer, List.getD_append _ _ _ _ hlt, List.getD_eq_getElem _ _ hlt]
      rw [List.getLast?_eq_getElem?, List.getElem?_eq_getElem hlt] at hslash
      exact fun h => hslash (congrArg some h)
    rw [continueLine, if_neg (by simpa using hne), if_neg hlast]
  unfold shellCommand
  rw [hget]
  simp only [Option.bind_eq_bind, Option.bind_some]
  rw [hgo, ← typed_line]
  unfold CommandLine.argv
  simp only [List.length_map]
  rfl

/-- The shell runs the line that the user sees if and only if the line ends with a
space or it was never longer than it is at the end. -/
theorem runs_line_iff {old rest : List UInt8} {enter : UInt8} (hold : old.length = 100)
    (hkeys : ∀ ch ∈ keys, isEnter ch = false) (henter : isEnter enter = true)
    (hfit : ∀ p, p <+: keys → (edit p).length ≤ 99) (hne : edit keys ≠ [])
    (hslash : (edit keys).getLast? ≠ some slashChar) :
    RunsLine old keys enter rest ↔ (edit keys).getLast? = some spaceChar ∨
      ∀ p, p <+: keys → (edit p).length ≤ (edit keys).length := by
  have hlen := (typed_length_le_iff keys 99).mpr hfit
  have hline : (typedCommand keys hlen).line = edit keys := typed_line keys
  have hruns : RunsLine old keys enter rest ↔
      (typedCommand keys hlen).argv.map CString.bytes = words (edit keys) := by
    unfold RunsLine
    rw [shellCommand_typed hold hkeys henter hlen hne hslash]
    constructor
    · intro ⟨argv, hargv, hwords⟩
      rw [← (Prod.mk.inj (Prod.mk.inj (Option.some.inj hargv)).2).1] at hwords
      exact hwords
    · intro hwords
      exact ⟨_, by rw [← hwords, List.length_map], hwords⟩
  have hzero : 0 ∉ edit keys := hline ▸ CommandLine.zero_notMem _
  have hbehind : (typedCommand keys hlen).behind.takeWhile (· ≠ 0) = [] ↔
      (typed keys).length ≤ (edit keys).length := by
    rw [CommandLine.takeWhile_behind_eq_nil_iff, ← typed_line, ← List.length_eq_zero_iff]
    unfold Typed.length
    rw [List.length_append]
    show (typed keys).takenBack.length = 0 ↔ _
    omega
  rw [hruns, CommandLine.argv_bytes, hline, texts_eq_words_iff hzero hne, hbehind,
    typed_length_le_iff]

/-- `lx`, a backspace and `s` -/
theorem typed_over_runs : RunsLine (List.replicate 100 0) [108, 120, 8, 115] 13 [] := by
  have hinits : ∀ n, (∀ p ∈ [108, 120, 8, 115].inits, (edit p).length ≤ n) →
      ∀ p, p <+: [108, 120, 8, 115] → (edit p).length ≤ n :=
    fun n h p hp => h p ((List.mem_inits p _).mpr hp)
  exact (runs_line_iff List.length_replicate (by decide +kernel) (by decide)
    (hinits 99 (by decide +kernel)) (by decide) (by decide)).mpr
    (Or.inr (hinits 2 (by decide)))

/-- `ab` and a backspace: the user sees `a`, and the shell runs `ab`. -/
theorem taken_back_runs :
    edit [97, 98, 8] = [97] ∧
      (shellCommand (List.replicate 100 0) [97, 98, 8, 13]).map
        (fun command => command.2.1.map CString.bytes) = some [[97, 98]] ∧
      ¬ RunsLine (List.replicate 100 0) [97, 98, 8] 13 [] := by
  have hruns : (shellCommand (List.replicate 100 0) [97, 98, 8, 13]).map
      (fun command => command.2.1.map CString.bytes) = some [[97, 98]] := by decide +kernel
  refine ⟨by decide, hruns, fun ⟨argv, hargv, hwords⟩ => ?_⟩
  rw [List.cons_append, List.cons_append, List.cons_append, List.nil_append] at hargv
  rw [hargv, Option.map_some, hwords] at hruns
  revert hruns
  decide

end Command

end MipsOs.System
