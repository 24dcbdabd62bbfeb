import MipsOs.Fs.PathLookup
import MipsOs.Fs.Pins
import MipsOs.Fs.Steady

/-!
# Calls that commit what they get

`do_find`, `do_find_dir`, `do_cd` and `open` leave the loop over a path by a
`break` at its last component and at one that they do not find, and `do_mkdir` and
`do_touch` return when the name is there.  These exits skip the calls of
`block_commit`.

`Commits` says of a step, by the arguments of the call, the directories that the
cache shows and the offset of the file, that it takes none of these exits.  `Passes`
follows a path from directory to directory: behind the last component there is a
`'/'`, and every component is found, or the directory is full.  The conditions keep
the calls inside their buffers as well: `file_name` has 100 bytes, `dir_name` 64, a
name has to fit into the directory block, and an offset is an `int`.

`pins_balanced` is the result: in every run of such steps no buffer is marked in use
after a call, and every `block_get` comes back, and every further call that stays inside
of its arrays, whether it commits or not (`InArrays`).
-/

namespace MipsOs.Fs

open MipsOs.Lib MipsOs.Lib.BlockProg MipsOs.Mm

/-! ## Paths -/

/-- The inode block and the directory block of `d` are steady. -/
structure SteadyDir (sb : SuperBlock) (c : Cache) (d : Int) : Prop where
  inode : c.Steady (inodeInBlock sb d)
  dir : c.Steady ((inodeOf sb c.content d).addrs 0)

/-- Entry `i` is the first one with the name, and no entry before it is empty. -/
structure FirstNamed (dir : Block) (name : List UInt8) (i : Nat) : Prop where
  lt : i < dentryPerBlock
  used : ∀ j ≤ i, entryEmpty dir j = false
  named : (entryName dir i).bytes = name
  first : ∀ j < i, (entryName dir j).bytes ≠ name

/-- All entries are in use, and none has the name. -/
structure FullOfOthers (dir : Block) (name : List UInt8) : Prop where
  used : ∀ j < dentryPerBlock, entryEmpty dir j = false
  other : ∀ j < dentryPerBlock, (entryName dir j).bytes ≠ name

/-- From the inode `d` every component is looked up in a directory that has it, and
there it is shorter than `limit`, or in a full directory. -/
inductive Passes (sb : SuperBlock) (c : Cache) (limit : Nat) : Int → List (List UInt8) → Prop where
  | nil (d : Int) : Passes sb c limit d []
  | enters {d : Int} {name : List UInt8} {names : List (List UInt8)} {i : Nat}
      (hdir : IsDir sb c.content d) (hsteady : SteadyDir sb c d)
      (hentry : FirstNamed (dirOf sb c.content d) name i) (hlen : name.length < limit)
      (h : Passes sb c limit (asInt (entryInodeId (dirOf sb c.content d) i)) names) :
      Passes sb c limit d (name :: names)
  | stays {d : Int} {name : List UInt8} {names : List (List UInt8)}
      (hdir : IsDir sb c.content d) (hsteady : SteadyDir sb c d)
      (hfull : FullOfOthers (dirOf sb c.content d) name) (h : Passes sb c limit d names) :
      Passes sb c limit d (name :: names)

section Lookup

variable {dir : Block} {name : CString} {i : Nat}

theorem FirstNamed.lookup (h : FirstNamed dir name.bytes i) : lookup dir name = .found i := by
  have hlt := h.lt
  apply lookupFrom_eq_found (fun j _ hj => h.used j hj) _ (CString.ext_bytes h.named)
    (Nat.zero_le _) (by omega)
  intro j _ hj heq
  exact h.first j hj (congrArg CString.bytes heq)

theorem FullOfOthers.lookup (h : FullOfOthers dir name.bytes) : lookup dir name = .full := by
  apply lookupFrom_eq_full (fun j _ hj => h.used j (by omega))
  intro j _ hj heq
  exact h.other j (by omega) (congrArg CString.bytes heq)

end Lookup

/-! ## Paths that end in a slash -/

/-- The path is empty, or a `'/'` is its last character. -/
def Closed (rest : List UInt8) : Prop := rest = [] ∨ rest.getLast? = some slash

section Closed

variable {rest : List UInt8}

theorem Closed.afterSlash_ne_none (h : Closed rest) (hrest : rest ≠ []) :
    afterSlash rest ≠ none := by
  have hmem : slash ∈ rest := List.mem_of_getLast? (h.resolve_left hrest)
  unfold afterSlash
  cases hdrop : rest.dropWhile (· ≠ slash) with
  | nil =>
    have hall := List.dropWhile_eq_nil_iff.mp hdrop slash hmem
    simp at hall
  | cons c r => simp

theorem Closed.suffix {rest' : List UInt8} (h : Closed rest) (hsuffix : rest' <:+ rest) :
    Closed rest' := by
  by_cases hnil : rest' = []
  · exact .inl hnil
  · obtain ⟨front, rfl⟩ := hsuffix
    rcases h with hempty | hlast
    · exact absurd (List.append_eq_nil_iff.mp hempty).2 hnil
    · refine .inr ?_
      rwa [List.getLast?_append_of_ne_nil _ hnil] at hlast

theorem afterSlash_suffix (rest : List UInt8) : (afterSlash rest).getD [] <:+ rest := by
  unfold afterSlash
  cases hdrop : rest.dropWhile (· ≠ slash) with
  | nil => exact List.nil_suffix
  | cons c r =>
    have hsuffix := List.dropWhile_suffix (l := rest) (· ≠ slash)
    rw [hdrop] at hsuffix
    exact (List.suffix_cons c r).trans hsuffix

end Closed

/-! ## The walk over a path -/

section Run

variable {α : Type} {c c₁ c₂ : Cache}

@[simp] theorem runProg_blockGet_bind (b : Nat) (r : Bool) (f : Nat → Prog α) :
    runProg (BlockProg.blockGet b r >>= f) c =
      (blockGet c b r).bind fun e => runProg (f e.1) e.2 := rfl

@[simp] theorem runProg_read_bind (page : Nat) (f : Block → Prog α) :
    runProg (BlockProg.read page >>= f) c = runProg (f (c.mem page)) c := rfl

@[simp] theorem runProg_blockCommit_bind (page : Nat) (w : Bool) (f : Unit → Prog α) :
    runProg (BlockProg.blockCommit page w >>= f) c = runProg (f ()) (blockCommit c page w) := rfl

variable {sb : SuperBlock} {n p q : Nat} {rest : List UInt8} {w : Walk}

/-- One round of the loop over a path that goes on. -/
theorem runProg_walkFrom_succ (hrest : rest ≠ [])
    (hinode : blockGet c (inodeInBlock sb w.inodeId) true = some (p, c₁))
    (htype : (inodeAt (c₁.mem p) (inodeOffset w.inodeId)).type = typeDir)
    (hdir : blockGet c₁ ((inodeAt (c₁.mem p) (inodeOffset w.inodeId)).addrs 0) true = some (q, c₂))
    (herror : ({ w with isEnd := afterSlash rest = none }.search (c₂.mem q)
      (firstName rest)).error = false)
    (hend : ({ w with isEnd := afterSlash rest = none }.search (c₂.mem q)
      (firstName rest)).isEnd = false) :
    runProg (walkFrom sb (n + 1) rest w) c =
      runProg (walkFrom sb n ((afterSlash rest).getD [])
        ({ w with isEnd := afterSlash rest = none }.search (c₂.mem q) (firstName rest)))
        (blockCommit (blockCommit c₂ p false) q false) := by
  rw [walkFrom, if_neg hrest, runProg_blockGet_bind, hinode]
  simp only [Option.bind_some, runProg_read_bind]
  rw [if_neg (not_not.mpr htype), runProg_blockGet_bind, hdir]
  simp only [Option.bind_some, runProg_read_bind]
  rw [if_neg (by simp [herror, hend])]
  rfl

/-- A search that ends at an entry goes on to its inode. -/
theorem Walk.search_entry {dir : Block} {name : CString} {i : Nat}
    (h : FirstNamed dir name.bytes i) :
    (w.search dir name).inodeId = asInt (entryInodeId dir i) ∧
      (w.search dir name).error = w.error ∧ (w.search dir name).isEnd = w.isEnd := by
  rw [Walk.search_found h.lookup]
  exact ⟨Walk.mk_inodeId .., Walk.mk_error .., Walk.mk_isEnd ..⟩

end Run

section Walk

variable {sb : SuperBlock} {c₀ c : Cache} {extra : Finset Nat} {limit n : Nat} {d : Int}
  {rest : List UInt8} {w : Walk}

/-- The pages of a steady directory, as the walk gets them. -/
theorem SteadyDir.get (hsteady : SteadyDir sb c₀ d) (hkeep : Keeps c₀ c)
    (h : Pinned extra [] c) :
    ∃ p c₁ q c₂, blockGet c (inodeInBlock sb d) true = some (p, c₁) ∧
      inodeAt (c₁.mem p) (inodeOffset d) = inodeOf sb c₀.content d ∧
      blockGet c₁ ((inodeOf sb c₀.content d).addrs 0) true = some (q, c₂) ∧
      c₂.mem q = dirOf sb c₀.content d ∧ Keeps c₀ c₂ ∧ Pinned extra [q, p] c₂ := by
  obtain ⟨p, c₁, hinode, h₁⟩ := h.get (by decide) (inodeInBlock sb d) true
  obtain ⟨hinodeSteady, hinodeContent⟩ := hkeep _ hsteady.inode
  have hkeep₁ := hkeep.trans (blockGet_keeps h.wf hinode)
  obtain ⟨hdirSteady, hdirContent⟩ := hkeep₁ _ hsteady.dir
  obtain ⟨q, c₂, hdir, h₂⟩ := h₁.get (show 1 < 32 by decide)
    ((inodeOf sb c₀.content d).addrs 0) true
  refine ⟨p, c₁, q, c₂, hinode, ?_, hdir, ?_, hkeep₁.trans (blockGet_keeps h₁.wf hdir), h₂⟩
  · rw [blockGet_mem h.wf hinodeSteady hinode, hinodeContent]
    rfl
  · rw [blockGet_mem h₁.wf hdirSteady hdir, hdirContent]
    rfl

/-- A walk that passes gets to the end of the path, and it holds nothing there. -/
theorem Passes.run (hpass : Passes sb c₀ limit w.inodeId (components rest))
    (hclosed : Closed rest) (hzero : 0 ∉ rest) (hlen : rest.length ≤ n)
    (herror : w.error = false) (hend : w.isEnd = false) (hkeep : Keeps c₀ c)
    (h : Pinned extra [] c) : Returns extra c (walkFrom sb n rest w) := by
  induction n generalizing rest w c with
  | zero => exact ⟨w, c, rfl, h⟩
  | succ n ih =>
    by_cases hrest : rest = []
    · refine ⟨w, c, ?_, h⟩
      rw [walkFrom, if_pos hrest]
      rfl
    have hlen' : ((afterSlash rest).getD []).length ≤ n := by
      have hlt := afterSlash_length hrest
      omega
    have hclosed' := hclosed.suffix (afterSlash_suffix rest)
    have hzero' := zero_not_mem_afterSlash hzero
    have hnext : decide (afterSlash rest = none) = false :=
      decide_eq_false (hclosed.afterSlash_ne_none hrest)
    rw [components_cons hrest, ← firstName_bytes hzero] at hpass
    have hround : ∀ w' : Walk, IsDir sb c₀.content w.inodeId → SteadyDir sb c₀ w.inodeId →
        { w with isEnd := afterSlash rest = none }.search (dirOf sb c₀.content w.inodeId)
          (firstName rest) = w' →
        w'.error = false → w'.isEnd = false →
        Passes sb c₀ limit w'.inodeId (components ((afterSlash rest).getD [])) →
        Returns extra c (walkFrom sb (n + 1) rest w) := by
      intro w' hdir hsteady hsearch herror' hend' hpass'
      obtain ⟨p, c₁, q, c₂, hinode, hinodeAt, hget, hmem, hkeep₂, h₂⟩ := hsteady.get hkeep h
      have hcommit := (h₂.commit p false).commit q false
      rw [List.erase_comm, List.erase_cons_head, List.erase_cons_head] at hcommit
      have hkeep' := (hkeep₂.trans (blockCommit_keeps c₂ p)).trans (blockCommit_keeps _ q)
      obtain ⟨a, c', hrun, hend⟩ :=
        ih hpass' hclosed' hzero' hlen' herror' hend' hkeep' hcommit
      refine ⟨a, c', ?_, hend⟩
      rw [runProg_walkFrom_succ hrest hinode (by rw [hinodeAt]; exact hdir) (by rwa [hinodeAt])
        (by rwa [hmem, hsearch]) (by rwa [hmem, hsearch]), hmem, hsearch]
      exact hrun
    generalize hnames : components ((afterSlash rest).getD []) = names at hpass hround
    cases hpass with
    | enters hdir hsteady hentry hshort hpass' =>
      obtain ⟨hinode, herror', hend'⟩ :=
        Walk.search_entry (w := { w with isEnd := afterSlash rest = none }) hentry
      exact hround _ hdir hsteady rfl (herror'.trans herror) (hend'.trans hnext)
        (hinode ▸ hpass')
    | stays hdir hsteady hfull hpass' =>
      exact hround _ hdir hsteady (Walk.search_full hfull.lookup) herror hnext hpass'

end Walk

namespace FsState

variable {P : Type} [DecidableEq P] {s s' : FsState P} {extra : Finset Nat}

/-! ## The condition on a step -/

/-- The path fits into `file_name`, and its components lead from directory to directory
to a `'/'` at the end. -/
structure PathCommits (s : FsState P) (limit : Nat) (path : CString) : Prop where
  fits : path.strlen < 100
  closed : Closed path.bytes
  passes : Passes s.superBlock s.fs.cache limit
    (if path.bytes.head? = some slash then 0 else s.globals.cur.inode) (pathComponents path)

/-- The name is not in the directory and fits into its first empty entry, and there is a
free inode. -/
structure RoomFor (s : FsState P) (faInodeId : Nat) (name : CString) : Prop where
  steady : SteadyDir s.superBlock s.fs.cache faInodeId
  slot : ∃ i, 64 * i + name.strlen < blockSize ∧
    (∀ j < i, entryEmpty (dirOf s.superBlock s.fs.cache.content faInodeId) j = false) ∧
    entryEmpty (dirOf s.superBlock s.fs.cache.content faInodeId) i = true ∧
    ∀ j ≤ i, entryName (dirOf s.superBlock s.fs.cache.content faInodeId) j ≠ name
  inode : s.fs.cache.Steady s.superBlock.inodeBitmapStart ∧ ∃ k < bitsPerBlock,
    bitmapCheck (s.fs.cache.content s.superBlock.inodeBitmapStart) k = false

/-- The name is in the directory, in front of its first empty entry. -/
def HasEntry (s : FsState P) (faInodeId : Nat) (name : CString) : Prop :=
  SteadyDir s.superBlock s.fs.cache faInodeId ∧
    ∃ i, FirstNamed (dirOf s.superBlock s.fs.cache.content faInodeId) name.bytes i

/-- A transfer stays within the offsets that are an `int`. -/
def OffsetsFit (s : FsState P) (caller : P) (fd : Fin maxFiles) (size : Nat) : Prop :=
  ∀ f, s.globals.tables.fds caller fd = some f →
    0 ≤ (s.globals.tables.files f).offset ∧ (s.globals.tables.files f).offset + size < 2 ^ 31

/-- `open` takes an entry of the page of `files`, for a path as above. -/
def OpenCommits (s : FsState P) (caller : P) (name : CString) : Prop :=
  s.globals.tables.freeFile = none ∨ s.globals.tables.freeFd caller = none ∨
    (∃ f, s.globals.tables.freeFile = some f ∧ InPage f) ∧ s.PathCommits 100 name

/-- The step takes no exit that skips the calls of `block_commit`. -/
def Commits (s : FsState P) : FsEvent P → Prop
  | .call (.find path) => s.PathCommits 100 path
  | .call (.findDir path) => s.PathCommits 100 path
  | .call (.cd _ path) => s.PathCommits 64 path
  | .call (.opens caller name _) => s.OpenCommits caller name
  | .call (.mkdir _ faInodeId name) => s.RoomFor faInodeId name
  | .call (.touch _ faInodeId name) => s.RoomFor faInodeId name
  | .call (.read _ caller fd size) => s.OffsetsFit caller fd size
  | .call (.write _ caller fd buff) => s.OffsetsFit caller fd buff.length
  | _ => True

/-- The call writes inside of its arrays, whether it commits what it gets or not. -/
def InArrays (s : FsState P) : FsCall P → Prop
  | .find path => path.strlen < 100
  | .findDir path => path.strlen < 100
  | .cd _ path => path.strlen < 100 ∧ ∀ name ∈ pathComponents path, name.length < 64
  | .opens _ name _ => name.strlen < 100 ∧ ∀ f, s.globals.tables.freeFile = some f → InPage f
  | .mkdir _ faInodeId name => s.RoomFor faInodeId name ∨ s.HasEntry faInodeId name
  | .touch _ faInodeId name => s.RoomFor faInodeId name ∨ s.HasEntry faInodeId name
  | .read _ caller fd size => s.OffsetsFit caller fd size
  | .write _ caller fd buff => s.OffsetsFit caller fd buff.length
  | _ => True

/-! ## Steps -/

omit [DecidableEq P] in
/-- The walk over such a path holds nothing at its end. -/
theorem PathCommits.returns {limit : Nat} {path : CString} (hpath : s.PathCommits limit path)
    (h : Pinned extra [] s.fs.cache) :
    Returns extra s.fs.cache (walk s.superBlock s.globals.cur.inode path) := by
  have hzero : (0 : UInt8) ∉ path.bytes := path.nonzero
  have hpasses := hpath.passes
  unfold pathComponents at hpasses
  unfold walk walkStart
  by_cases hroot : path.bytes.head? = some slash
  · rw [if_pos hroot] at hpasses ⊢
    rw [if_pos hroot] at hpasses
    exact hpasses.run (hpath.closed.suffix (List.tail_suffix _))
      (fun hmem => hzero (List.mem_of_mem_tail hmem)) le_rfl rfl rfl (Keeps.refl _) h
  · rw [if_neg hroot] at hpasses ⊢
    rw [if_neg hroot] at hpasses
    exact hpasses.run hpath.closed hzero le_rfl rfl rfl (Keeps.refl _) h

omit [DecidableEq P] in
/-- The search for a name that has room ends with the two pages that `makeDir` and
`makeFile` commit. -/
theorem RoomFor.returns {faInodeId : Nat} {name : CString} (hroom : s.RoomFor faInodeId name)
    (h : Pinned extra [] s.fs.cache) {k : Slot → Nat → Prog Unit}
    (hk : ∀ slot dirI, (k slot dirI).Pins diskBuffSize [slot.faDirBlock, slot.faInodeBlock]
      fun _ held => held = []) :
    Returns extra s.fs.cache (do
      let slot ← searchSlot s.superBlock faInodeId name
      match slot.dirI with
      | none => return ()
      | some dirI => k slot dirI) := by
  obtain ⟨p, c₁, q, c₂, hinode, hinodeAt, hdir, hmem, _, hpinned⟩ :=
    hroom.steady.get (Keeps.refl _) h
  obtain ⟨i, hfits, hused, hempty, hother⟩ := hroom.slot
  have hi : i < dentryPerBlock := by
    rw [dentryPerBlock]
    rw [blockSize] at hfits
    omega
  have hslot : freeSlot (c₂.mem q) name = some i := by
    rw [hmem]
    exact slotFrom_eq_some (fun j _ hj => hused j hj) (fun j _ hj => hother j hj) hempty
      (Nat.zero_le _) (by omega)
  obtain ⟨_, c', held, hrun, hpinned', rfl⟩ := hpinned.run (hk ⟨p, q, some i⟩ i)
  refine ⟨(), c', ?_, hpinned'⟩
  rw [searchSlot]
  simp only [bind_assoc, runProg_blockGet_bind, runProg_read_bind, hinode, Option.bind_some,
    hinodeAt, hdir, pure_bind, hslot]
  exact hrun

/-- A call that takes no exit without `block_commit` holds nothing after it. -/
theorem Commits.returns {call : FsCall P} {p : Prog (FsGlobals P)}
    (hcommits : s.Commits (.call call)) (hp : call.prog s.superBlock s.globals = some p)
    (h : Pinned extra [] s.fs.cache) : Returns extra s.fs.cache p := by
  have hone : 1 ≤ diskBuffSize := by decide
  have hthree : 3 ≤ diskBuffSize := by decide
  cases call with
  | ls inodeId =>
    obtain rfl := Option.some.inj hp
    exact (h.returns (doLs_balanced inodeId) (by decide)).map _
  | find path =>
    obtain rfl := Option.some.inj hp
    rw [doFind_eq]
    exact ((PathCommits.returns hcommits h).map _).map _
  | findDir path =>
    obtain rfl := Option.some.inj hp
    rw [doFindDir_eq]
    refine Returns.map ((PathCommits.returns hcommits h).bind (fun w => ?_) hone) _
    exact (checkDir_balanced w.inodeId).bind fun _ => balanced_pure _
  | cd undefName path =>
    obtain rfl := Option.some.inj hp
    refine Returns.map ((PathCommits.returns hcommits h).bind (fun w => ?_) hone) _
    exact (checkDir_balanced w.inodeId).bind fun _ => balanced_pure _
  | mkdir undef faInodeId name =>
    obtain rfl := Option.some.inj hp
    refine Returns.map (RoomFor.returns hcommits h fun slot dirI => ?_) _
    exact makeDir_pins _ _ _ _ (by decide) rfl
  | touch undef faInodeId name =>
    obtain rfl := Option.some.inj hp
    refine Returns.map (RoomFor.returns hcommits h fun slot dirI => ?_) _
    exact makeFile_pins _ _ _ (by decide) rfl
  | opens caller name access =>
    obtain rfl := Option.some.inj hp
    refine Returns.map ?_ _
    unfold openFile
    split
    · exact h.returns (balanced_pure (n := 0) _) (Nat.zero_le _)
    · rename_i hroom
      have hpath : s.PathCommits 100 name := by
        rcases hcommits with hfull | hfull | ⟨_, hpath⟩
        · exact absurd (Or.inl hfull) hroom
        · exact absurd (Or.inr hfull) hroom
        · exact hpath
      rw [doFind_eq]
      exact ((hpath.returns h).map _).bind
        (fun found => openFound_balanced s.globals.tables caller access found) hone
  | read undef caller fd size =>
    obtain ⟨f, _, hp⟩ := Option.bind_eq_some_iff.mp hp
    obtain rfl := Option.some.inj hp
    exact (h.returns (readFile_balanced _ _) hthree).map _
  | write undef caller fd buff =>
    obtain ⟨f, _, hp⟩ := Option.bind_eq_some_iff.mp hp
    obtain rfl := Option.some.inj hp
    exact (h.returns (writeFile_balanced _ _) hthree).map _
  | seek caller fd offset =>
    obtain ⟨f, _, hp⟩ := Option.bind_eq_some_iff.mp hp
    obtain rfl := Option.some.inj hp
    exact ⟨_, _, rfl, h⟩
  | closes caller fd =>
    obtain ⟨f, _, hp⟩ := Option.bind_eq_some_iff.mp hp
    obtain ⟨t, _, hp⟩ := Option.bind_eq_some_iff.mp hp
    obtain rfl := Option.some.inj hp
    exact (h.returns (writeBack_balanced _) hone).map _

/-- One step that commits what it gets keeps the invariant. -/
theorem step_inv {e : FsEvent P} (h : FsInv extra s.fs) (hcommits : s.Commits e)
    (hstep : s.step e = some s') : ∃ extra', FsInv extra' s'.fs := by
  cases e with
  | mount partId =>
    obtain rfl := Option.some.inj hstep
    exact h.mount partId
  | init partId =>
    obtain ⟨fs, hinit, rfl⟩ := Option.map_eq_some_iff.mp hstep
    obtain ⟨m', extra', hinit', hinv⟩ := h.init partId
    obtain rfl : m' = fs := by simpa [hinit'] using hinit
    exact ⟨extra', hinv⟩
  | unmount =>
    obtain rfl := Option.some.inj hstep
    exact h.unmount
  | call call =>
    obtain ⟨p, hp, hrun⟩ := Option.bind_eq_some_iff.mp hstep
    obtain ⟨r, hr, hs⟩ := Option.bind_eq_some_iff.mp hrun
    obtain ⟨a, c, hc, hpinned⟩ := hcommits.returns hp h.pinned
    obtain rfl : r = (a, c) := by simpa [hc] using hr.symm
    obtain rfl := Option.some.inj hs
    exact ⟨extra, hpinned, h.super_mem, h.card_lt⟩

omit [DecidableEq P] in
theorem boot_inv (table : PartitionTable) (card : Card) (mem : Nat → Block) (part : Fin 4)
    (behind : Fin globalMaxFiles → OpenFile) :
    FsInv bootPages (boot P table card mem part behind).fs where
  pinned := Cache.Idle.pinned (fun _ => rfl) (bootCache_wf table card mem part)
  super_mem := fun hm => by cases hm
  card_lt := fun _ => by decide

/-- In every run whose calls commit what they get, no buffer is marked in use after a
call, so every `block_get` and every further call that stays inside of its arrays comes
back. -/
theorem pins_balanced (table : PartitionTable) (card : Card) (mem : Nat → Block)
    (part : Fin 4) (behind : Fin globalMaxFiles → OpenFile)
    (h : Reaches step Commits (boot P table card mem part behind) s) :
    s.fs.cache.Idle ∧
      (∀ b doRead, ∃ r, blockGet s.fs.cache b doRead = some r) ∧
      ∀ (call : FsCall P) p, s.InArrays call → call.prog s.superBlock s.globals = some p →
        ∃ r, runProg p s.fs.cache = some r := by
  obtain ⟨extra, hinv⟩ : ∃ extra, FsInv extra s.fs := by
    refine h.invariant (fun s => ∃ extra, FsInv extra s.fs)
      ⟨bootPages, boot_inv table card mem part behind⟩ ?_
    intro a e b ⟨extra, ha⟩ hcommits hstep
    exact step_inv ha hcommits hstep
  refine ⟨hinv.pinned.idle, ?_, ?_⟩
  · intro b doRead
    obtain ⟨page, c, hget, _⟩ := hinv.pinned.get (by decide) b doRead
    exact ⟨_, hget⟩
  · intro call p _ hp
    obtain ⟨a, c, held, hrun, _⟩ := hinv.pinned.run (call.short hp)
    exact ⟨_, hrun⟩

/-- Boot over an empty card with four equal partitions and one process. -/
def blank : FsState Unit :=
  boot Unit (fun _ => { startLba := 0, sectorNum := 8192 }) (fun _ => 0) (fun _ _ => 0) 0
    zeroBehind

/-- Every buffer that holds a block is dirty, and the block has a byte offset of its own. -/
def AllDirty (c : Cache) : Prop :=
  ∀ i, (c.buff i).page ≠ 0 → (c.buff i).dirty = true ∧ (c.buff i).blockId < 2 ^ 20

instance (c : Cache) : Decidable (AllDirty c) := inferInstanceAs (Decidable (∀ _, _))

theorem AllDirty.steady {c : Cache} {b : Nat} (h : AllDirty c) (hb : b < 2 ^ 20) :
    c.Steady b where
  clean i hpage _ hclean := by
    rw [(h i hpage).1] at hclean
    cases hclean
  apart i hpage _ hne := separate_of_lt _ _ (h i hpage).2 hb hne

/-- The name `"a"`. -/
def nameA : CString := ⟨[97], by decide⟩

/-- The path `"a/"`. -/
def pathA : CString := ⟨[97, 47], by decide⟩

/-- The blocks of the directory `d` have byte offsets of their own. -/
def DirLow (sb : SuperBlock) (c : Cache) (d : Int) : Prop :=
  inodeInBlock sb d < 2 ^ 20 ∧ (inodeOf sb c.content d).addrs 0 < 2 ^ 20

instance (sb : SuperBlock) (c : Cache) (d : Int) : Decidable (DirLow sb c d) :=
  inferInstanceAs (Decidable (_ ∧ _))

theorem DirLow.steady {sb : SuperBlock} {c : Cache} {d : Int} (h : DirLow sb c d)
    (hdirty : AllDirty c) : SteadyDir sb c d :=
  ⟨hdirty.steady h.1, hdirty.steady h.2⟩

/-- After a format, the new directory `a` and a search for `a/` nothing is pinned. -/
theorem blank_find_slash_idle :
    ∃ s₁ s₂ s₃, blank.step (.init 0) = some s₁ ∧
      s₁.step (.call (.mkdir 0 0 nameA)) = some s₂ ∧
      s₂.step (.call (.find pathA)) = some s₃ ∧ s₃.fs.cache.Idle := by
  have hrun : ((blank.step (.init 0)).bind fun s₁ =>
      (s₁.step (.call (.mkdir 0 0 nameA))).bind fun s₂ =>
        (s₂.step (.call (.find pathA))).map fun _ => decide
          ((AllDirty s₁.fs.cache ∧ DirLow s₁.superBlock s₁.fs.cache 0 ∧
            (∀ j < 2, entryEmpty (dirOf s₁.superBlock s₁.fs.cache.content 0) j = false) ∧
            entryEmpty (dirOf s₁.superBlock s₁.fs.cache.content 0) 2 = true ∧
            (∀ j ≤ 2, entryName (dirOf s₁.superBlock s₁.fs.cache.content 0) j ≠ nameA) ∧
            s₁.superBlock.inodeBitmapStart < 2 ^ 20 ∧
            bitmapCheck (s₁.fs.cache.content s₁.superBlock.inodeBitmapStart) 1 = false) ∧
          AllDirty s₂.fs.cache ∧ DirLow s₂.superBlock s₂.fs.cache 0 ∧
            IsDir s₂.superBlock s₂.fs.cache.content 0 ∧
            (∀ j ≤ 2, entryEmpty (dirOf s₂.superBlock s₂.fs.cache.content 0) j = false) ∧
            (entryName (dirOf s₂.superBlock s₂.fs.cache.content 0) 2).bytes = [97] ∧
            (∀ j < 2, (entryName (dirOf s₂.superBlock s₂.fs.cache.content 0) j).bytes ≠ [97]) ∧
            s₂.globals.cur.inode = 0)) = some true := by
    decide +kernel
  obtain ⟨s₁, hinit, hrun⟩ := Option.bind_eq_some_iff.mp hrun
  obtain ⟨s₂, hmkdir, hrun⟩ := Option.bind_eq_some_iff.mp hrun
  obtain ⟨s₃, hfind, hrun⟩ := Option.map_eq_some_iff.mp hrun
  obtain ⟨⟨hdirty, hlow, hused, hempty, hother, hbitmap, hfree⟩, hdirty', hlow', hdir, hused',
    hname, hfirst, hcur⟩ := of_decide_eq_true hrun
  refine ⟨s₁, s₂, s₃, hinit, hmkdir, hfind, ?_⟩
  have hroom : s₁.RoomFor 0 nameA :=
    ⟨hlow.steady hdirty, ⟨2, by decide, hused, hempty, hother⟩, hdirty.steady hbitmap,
      ⟨1, by decide, hfree⟩⟩
  have hpath : s₂.PathCommits 100 pathA := by
    refine ⟨by decide, .inr rfl, ?_⟩
    rw [show pathComponents pathA = [[97]] by decide, if_neg (by decide), hcur]
    exact .enters hdir (hlow'.steady hdirty') ⟨by decide, hused', hname, hfirst⟩ (by decide)
      (.nil _)
  have hreach : Reaches step Commits blank s₃ :=
    (((Reaches.refl blank).snoc (e := .init 0) trivial hinit).snoc
      (e := .call (.mkdir 0 0 nameA)) hroom hmkdir).snoc (e := .call (.find pathA)) hpath hfind
  exact (pins_balanced _ _ _ _ _ hreach).1

/-- After a format, a search for a name that is not in the root leaves two
buffers marked in use. -/
theorem find_leaves_pinned :
    ¬ ∀ s, Reaches step (fun _ _ => True) blank s → s.fs.cache.Idle := by
  intro h
  have hrun : ((runIf step (fun _ _ => True) blank [.init 0, .call (.find nameA)]).map
      fun s => decide (∃ i, (s.fs.cache.buff i).inUse = true)) = some true := by
    decide +kernel
  obtain ⟨s, hs, hused⟩ := Option.map_eq_some_iff.mp hrun
  obtain ⟨i, hi⟩ := of_decide_eq_true hused
  rw [h s (reaches_of_runIf hs) i] at hi
  cases hi

end FsState

end MipsOs.Fs
