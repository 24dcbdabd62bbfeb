import MipsOs.Ipc.Mailbox
import MipsOs.Lib.CString

/-!
# The table of mailboxes

`do_mbox_open` and `do_mbox_close` of `libs/mailbox.c`.  The table is a hash
table with linear probing: `do_mbox_open` takes the first slot from the hash
of the name on that is free or has the name.  `do_mbox_close` makes a slot
free, in the middle of the probe sequences of other names.

`one_mailbox_per_name` says when every name has one mailbox: when no name is
opened while a free slot lies in front of its mailbox.
-/

namespace MipsOs.Ipc

open MipsOs.Lib MipsOs.Sched

/-- `MAX_NUM_BOX` -/
abbrev maxNumBox : Nat := 32

/-- `MAX_NAME_LENGTH` -/
def maxNameLength : Nat := 32

/-- `mutex_lock_t` -/
structure MutexLock where
  status : LockStatus
  blockQueue : List Task

/-- `condition_t` -/
structure Condition where
  blockQueue : List Task
  lock : MutexLock

/-- `mailbox_t` -/
structure Box where
  name : CString
  ring : Mailbox
  userCnt : Int
  lock : MutexLock
  notFull : Condition
  notEmpty : Condition

/-- A name that fits into a mailbox. -/
structure BoxName where
  name : CString
  ascii : ∀ c ∈ name.bytes, c < 128
  short : name.strlen < maxNameLength

/-- `mboxs` -/
abbrev Boxes := Fin maxNumBox → Box

/-- `do_mutex_lock_init` -/
def doMutexLockInit : MutexLock where
  status := .unlocked
  blockQueue := []

/-- `do_condition_init` -/
def doConditionInit : Condition where
  blockQueue := []
  lock := doMutexLockInit

/-- `init_mbox` -/
def initMbox (box : Box) (name : CString) : Box where
  name := name
  ring := .init box.ring.buff
  userCnt := 0
  lock := doMutexLockInit
  notFull := doConditionInit
  notEmpty := doConditionInit

/-- The hash of a name. -/
def hash (name : CString) : Int :=
  name.bytes.foldl (fun h c => (h + CString.charValue c).tmod maxNumBox) 0

/-- `mbox_id` in round `i` of the loop. -/
def mboxId (name : CString) (i : Nat) : Fin maxNumBox :=
  Fin.ofNat maxNumBox ((i + hash name).tmod maxNumBox).toNat

/-- The slots in the order in which the loop visits them. -/
def probe (name : CString) : List (Fin maxNumBox) :=
  (List.range maxNumBox).map (mboxId name)

/-- `do_mbox_open`: the mailbox, when there is one, and the table.  It faults
when `user_cnt` overflows. -/
def doMboxOpen (boxes : Boxes) (name : CString) :
    Except Fault (Option (Fin maxNumBox) × Boxes) :=
  match (probe name).find? fun b =>
      (boxes b).userCnt = 0 || CString.strcmp name (boxes b).name = 0 with
  | none => .ok (none, boxes)
  | some b =>
    let box := if (boxes b).userCnt = 0 then initMbox (boxes b) name else boxes b
    if box.userCnt + 1 < 2 ^ 31 then
      .ok (some b, Function.update boxes b { box with userCnt := box.userCnt + 1 })
    else
      .error .overflow

/-- `do_mbox_close` -/
def doMboxClose (boxes : Boxes) (b : Fin maxNumBox) : Boxes :=
  if (boxes b).userCnt > 0 then
    Function.update boxes b { boxes b with userCnt := (boxes b).userCnt - 1 }
  else
    boxes

/-- `mboxs` before anything is opened. -/
def bssBox : Box where
  name := ⟨[], by decide⟩
  ring := .init fun _ => 0
  userCnt := 0
  lock := doMutexLockInit
  notFull := doConditionInit
  notEmpty := doConditionInit

/-- The table, and how often each mailbox has been opened and not closed. -/
structure MboxTable where
  boxes : Boxes
  opens : Fin maxNumBox → Nat

/-- A call of `do_mbox_open` or of `do_mbox_close`. -/
inductive TableEvent where
  | open (name : BoxName)
  | close (b : Fin maxNumBox)

namespace MboxTable

/-- One call, with the count of what is open. -/
def step (s : MboxTable) : TableEvent → Option MboxTable
  | .open name =>
    (doMboxOpen s.boxes name.name).toOption.map fun (mbox, boxes) =>
      { boxes := boxes
        opens := match mbox with
          | none => s.opens
          | some b => Function.update s.opens b (s.opens b + 1) }
  | .close b =>
    some
      { boxes := doMboxClose s.boxes b
        opens := Function.update s.opens b (s.opens b - 1) }

/-- A close goes with an earlier open of the mailbox. -/
def Matched (s : MboxTable) : TableEvent → Prop
  | .open _ => True
  | .close b => 0 < s.opens b

/-- No free slot lies in front of a mailbox with the name. -/
def NoHole (s : MboxTable) (name : CString) : Prop :=
  ∀ b, 0 < (s.boxes b).userCnt → (s.boxes b).name = name →
    ∀ x ∈ (probe name).takeWhile (· ≠ b), (s.boxes x).userCnt ≠ 0

/-- Every open finds the mailbox of its name before a free slot. -/
def EventOk (s : MboxTable) (ev : TableEvent) : Prop :=
  s.Matched ev ∧ match ev with
    | .open name => s.NoHole name.name
    | .close _ => True

instance (s : MboxTable) (ev : TableEvent) : Decidable (s.Matched ev) := by
  cases ev <;> unfold Matched <;> infer_instance

instance (s : MboxTable) (name : CString) : Decidable (s.NoHole name) :=
  inferInstanceAs (Decidable (∀ _, _ → _ → ∀ _ ∈ _, _))

instance (s : MboxTable) (ev : TableEvent) : Decidable (s.EventOk ev) := by
  cases ev <;> unfold EventOk <;> infer_instance

/-- No two mailboxes that are open have the same name. -/
def UniqueNames (s : MboxTable) : Prop :=
  ∀ b b', 0 < (s.boxes b).userCnt → 0 < (s.boxes b').userCnt →
    (s.boxes b).name = (s.boxes b').name → b = b'

instance (s : MboxTable) : Decidable s.UniqueNames :=
  inferInstanceAs (Decidable (∀ _ _, _ → _ → _ → _))

/-- An open answers with the mailbox that is open under the name. -/
def ReturnsExisting (s : MboxTable) (name : CString) : Prop :=
  ∀ b, 0 < (s.boxes b).userCnt → (s.boxes b).name = name →
    ∀ r, doMboxOpen s.boxes name = .ok r → r.1 = some b

/-- The table before anything is opened. -/
def boot : MboxTable where
  boxes := fun _ => bssBox
  opens := fun _ => 0

end MboxTable

/-! ## The probe sequence -/

section Probe

variable {name : CString}

theorem hash_nonneg_lt (hascii : ∀ c ∈ name.bytes, c < 128) :
    0 ≤ hash name ∧ hash name < maxNumBox := by
  have hloop : ∀ (cs : List UInt8) (h : Int), (∀ c ∈ cs, c < 128) → 0 ≤ h → h < maxNumBox →
      0 ≤ cs.foldl (fun h c => (h + CString.charValue c).tmod maxNumBox) h ∧
        cs.foldl (fun h c => (h + CString.charValue c).tmod maxNumBox) h < maxNumBox := by
    intro cs
    induction cs with
    | nil => exact fun h _ h0 hlt => ⟨h0, hlt⟩
    | cons c cs ih =>
      intro h hall h0 hlt
      have hc : 0 ≤ CString.charValue c := by
        rw [CString.charValue_of_lt (hall c (List.mem_cons_self ..))]
        omega
      refine ih _ (fun c hc => hall c (List.mem_cons_of_mem _ hc)) ?_ ?_
      · exact Int.tmod_nonneg _ (by omega)
      · exact Int.tmod_lt_of_pos _ (by decide)
  exact hloop name.bytes 0 hascii le_rfl (by decide)

/-- Every slot is visited. -/
theorem mem_probe (hascii : ∀ c ∈ name.bytes, c < 128) (b : Fin maxNumBox) :
    b ∈ probe name := by
  obtain ⟨h0, hlt⟩ := hash_nonneg_lt hascii
  have hb := b.isLt
  refine List.mem_map.mpr ⟨(b.val + maxNumBox - (hash name).toNat) % maxNumBox, ?_, ?_⟩
  · exact List.mem_range.mpr (Nat.mod_lt _ (by decide))
  · apply Fin.ext
    simp only [mboxId, Fin.ofNat]
    rw [Int.tmod_eq_emod_of_nonneg (by omega)]
    simp only [maxNumBox] at *
    omega

/-- The first element that satisfies a test is `b` when nothing in front of `b`
does. -/
theorem find?_eq_some_iff_takeWhile {α : Type} [DecidableEq α] {p : α → Bool} {b : α}
    (hp : p b = true) {l : List α} (hb : b ∈ l) :
    l.find? p = some b ↔ ∀ x ∈ l.takeWhile (· ≠ b), p x = false := by
  induction l with
  | nil => cases hb
  | cons a l ih =>
    by_cases hab : a = b
    · subst hab
      simp [hp]
    · have hbl : b ∈ l := (List.mem_cons.mp hb).resolve_left fun h => hab h.symm
      rw [List.takeWhile_cons_of_pos (by simpa using hab)]
      cases hpa : p a with
      | true =>
        rw [List.find?_cons_of_pos hpa]
        refine iff_of_false (fun h => hab (Option.some.inj h)) fun h => ?_
        rw [h a (List.mem_cons_self ..)] at hpa
        cases hpa
      | false =>
        rw [List.find?_cons_of_neg (by simp [hpa]), ih hbl]
        simp [hpa]

end Probe

namespace MboxTable

variable {s s' : MboxTable} {name : BoxName} {b : Fin maxNumBox}

/-- The test of the loop. -/
def hits (s : MboxTable) (name : CString) (x : Fin maxNumBox) : Bool :=
  (s.boxes x).userCnt = 0 || CString.strcmp name (s.boxes x).name = 0

theorem hits_iff {name : CString} {x : Fin maxNumBox} :
    s.hits name x = true ↔ (s.boxes x).userCnt = 0 ∨ (s.boxes x).name = name := by
  simp only [hits, Bool.or_eq_true, decide_eq_true_eq, CString.strcmp_eq_zero_iff]
  rw [eq_comm (a := name)]

/-- The counters count the opens, and the names are unique. -/
structure Inv (s : MboxTable) : Prop where
  counts : ∀ b, (s.boxes b).userCnt = s.opens b
  unique : s.UniqueNames

theorem inv_boot : boot.Inv where
  counts := fun _ => rfl
  unique := by
    intro b b' hb
    exact absurd hb (lt_irrefl _)

theorem Inv.live_iff (h : s.Inv) (b : Fin maxNumBox) :
    0 < (s.boxes b).userCnt ↔ (s.boxes b).userCnt ≠ 0 := by
  have := h.counts b
  omega

/-- The search ends at the mailbox of the name when no free slot lies in
front. -/
theorem Inv.find?_iff (h : s.Inv) (hlive : 0 < (s.boxes b).userCnt)
    (hname : (s.boxes b).name = name.name) :
    (probe name.name).find? (s.hits name.name) = some b ↔
      ∀ x ∈ (probe name.name).takeWhile (· ≠ b), (s.boxes x).userCnt ≠ 0 := by
  rw [find?_eq_some_iff_takeWhile (hits_iff.mpr (Or.inr hname)) (mem_probe name.ascii b)]
  refine forall₂_congr fun x hx => ?_
  have hxb : x ≠ b := by
    have := List.mem_takeWhile_imp hx
    simpa using this
  rw [← Bool.not_eq_true, hits_iff, not_or]
  constructor
  · exact fun hx => hx.1
  · intro hx
    refine ⟨hx, fun hxname => hxb ?_⟩
    exact h.unique x b ((h.live_iff x).mpr hx) hlive (hxname.trans hname.symm)

/-- The two ways of `do_mbox_open`, when it does not overflow. -/
theorem doMboxOpen_cases {r : Option (Fin maxNumBox) × Boxes}
    (hopen : doMboxOpen s.boxes name.name = .ok r) :
    (probe name.name).find? (s.hits name.name) = none ∧ r = (none, s.boxes) ∨
      ∃ b, (probe name.name).find? (s.hits name.name) = some b ∧ r.1 = some b ∧
        (r.2 b).name = name.name ∧ (r.2 b).userCnt = (s.boxes b).userCnt + 1 ∧
        ∀ x, x ≠ b → r.2 x = s.boxes x := by
  rw [doMboxOpen] at hopen
  change (match (probe name.name).find? (s.hits name.name) with
    | none => _
    | some b => _) = _ at hopen
  cases hfind : (probe name.name).find? (s.hits name.name) with
  | none =>
    rw [hfind] at hopen
    exact Or.inl ⟨rfl, (Except.ok.inj hopen).symm⟩
  | some b =>
    rw [hfind] at hopen
    simp only at hopen
    have hhit := hits_iff.mp (List.find?_some hfind)
    generalize hbox : (if (s.boxes b).userCnt = 0 then initMbox (s.boxes b) name.name
      else s.boxes b) = box at hopen
    have hname : box.name = name.name := by
      rw [← hbox]
      split
      · rfl
      · rename_i hused
        exact hhit.resolve_left hused
    have hcnt : box.userCnt = (s.boxes b).userCnt := by
      rw [← hbox]
      split
      · rename_i hfree
        exact hfree.symm
      · rfl
    split at hopen
    · obtain rfl := Except.ok.inj hopen
      refine Or.inr ⟨b, rfl, rfl, ?_, ?_, fun x hx => Function.update_of_ne hx _ _⟩
      · simp only [Function.update_self]
        exact hname
      · simp only [Function.update_self]
        rw [hcnt]
    · cases hopen

/-- The mailbox that an open answers with, when nothing is in front of it. -/
theorem Inv.returns_existing (h : s.Inv) (hok : s.NoHole name.name) :
    s.ReturnsExisting name.name := by
  intro b hlive hname r hopen
  have hfind := (h.find?_iff hlive hname).mpr (hok b hlive hname)
  rcases doMboxOpen_cases hopen with ⟨hnone, _⟩ | ⟨b', hsome, hr, _⟩
  · rw [hfind] at hnone
    cases hnone
  · rw [hr, ← hsome, hfind]

/-- An open without a hole keeps the invariant. -/
theorem Inv.open (h : s.Inv) (hok : s.NoHole name.name) (hstep : s.step (.open name) = some s') :
    s'.Inv := by
  obtain ⟨⟨mbox, boxes⟩, hopen, rfl⟩ := Option.map_eq_some_iff.mp hstep
  have hopen' := toOption_eq_some.mp hopen
  have hreturn := h.returns_existing hok
  rcases doMboxOpen_cases hopen' with ⟨_, hr⟩ | ⟨b, _, hr, hname, hcnt, hother⟩
  · obtain ⟨rfl, rfl⟩ := Prod.mk.inj hr
    exact h
  · obtain rfl : mbox = some b := hr
    simp only at hname hcnt hother
    refine ⟨fun x => ?_, ?_⟩
    · simp only
      by_cases hx : x = b
      · subst hx
        rw [hcnt, h.counts, Function.update_self]
        push_cast
        rfl
      · rw [hother x hx, h.counts, Function.update_of_ne hx]
    · have hfresh : ∀ x, x ≠ b → 0 < (s.boxes x).userCnt → (s.boxes x).name ≠ name.name := by
        intro x hx hlive hxname
        exact hx (Option.some.inj (hreturn x hlive hxname _ hopen')).symm
      intro x y hx hy hxy
      by_cases hxb : x = b <;> by_cases hyb : y = b
      · rw [hxb, hyb]
      · subst hxb
        simp only [hother y hyb] at hy hxy
        exact absurd (hxy.symm.trans hname) (hfresh y hyb hy)
      · subst hyb
        simp only [hother x hxb] at hx hxy
        exact absurd (hxy.trans hname) (hfresh x hxb hx)
      · simp only [hother x hxb, hother y hyb] at hx hy hxy
        exact h.unique x y hx hy hxy

/-- A close that goes with an open keeps the invariant. -/
theorem Inv.close (h : s.Inv) (hok : 0 < s.opens b) (hstep : s.step (.close b) = some s') :
    s'.Inv := by
  obtain rfl := Option.some.inj hstep
  have hcount := h.counts b
  have hpos : (s.boxes b).userCnt > 0 := by omega
  have hclose : doMboxClose s.boxes b =
      Function.update s.boxes b { s.boxes b with userCnt := (s.boxes b).userCnt - 1 } :=
    if_pos hpos
  have hname : ∀ x, (doMboxClose s.boxes b x).name = (s.boxes x).name := by
    intro x
    rw [hclose]
    by_cases hx : x = b
    · subst hx
      rw [Function.update_self]
    · rw [Function.update_of_ne hx]
  have hle : ∀ x, (doMboxClose s.boxes b x).userCnt ≤ (s.boxes x).userCnt := by
    intro x
    rw [hclose]
    by_cases hx : x = b
    · subst hx
      rw [Function.update_self]
      show (s.boxes x).userCnt - 1 ≤ (s.boxes x).userCnt
      omega
    · rw [Function.update_of_ne hx]
  refine ⟨fun x => ?_, fun x y hx hy hxy => ?_⟩
  · show (doMboxClose s.boxes b x).userCnt =
      ((Function.update s.opens b (s.opens b - 1) x : Nat) : Int)
    rw [hclose]
    by_cases hx : x = b
    · subst hx
      rw [Function.update_self, Function.update_self]
      show (s.boxes x).userCnt - 1 = _
      omega
    · rw [Function.update_of_ne hx, Function.update_of_ne hx, h.counts]
  · have hx' : 0 < (doMboxClose s.boxes b x).userCnt := hx
    have hy' : 0 < (doMboxClose s.boxes b y).userCnt := hy
    have hxle := hle x
    have hyle := hle y
    refine h.unique x y (by omega) (by omega) ?_
    rw [← hname x, ← hname y]
    exact hxy

theorem Inv.step {ev : TableEvent} (h : s.Inv) (hok : s.EventOk ev)
    (hstep : s.step ev = some s') : s'.Inv := by
  cases ev with
  | «open» name => exact h.open hok.2 hstep
  | close b => exact h.close hok.1 hstep

/-- Behind a hole an open makes a second mailbox. -/
theorem Inv.not_returns_existing (h : s.Inv) (hlive : 0 < (s.boxes b).userCnt)
    (hname : (s.boxes b).name = name.name)
    (hhole : ¬ ∀ x ∈ (probe name.name).takeWhile (· ≠ b), (s.boxes x).userCnt ≠ 0) :
    ¬ s.ReturnsExisting name.name := by
  intro hreturn
  have hfind : (probe name.name).find? (s.hits name.name) ≠ some b := fun heq =>
    hhole ((h.find?_iff hlive hname).mp heq)
  cases hsome : (probe name.name).find? (s.hits name.name) with
  | none =>
    have hmiss := List.find?_eq_none.mp hsome b (mem_probe name.ascii b)
    exact hmiss (hits_iff.mpr (Or.inr hname))
  | some y =>
    have hyb : y ≠ b := by
      rintro rfl
      exact hfind hsome
    have hfree : (s.boxes y).userCnt = 0 := by
      rcases hits_iff.mp (List.find?_some hsome) with hfree | hyname
      · exact hfree
      · by_contra hused
        exact hyb (h.unique y b ((h.live_iff y).mpr hused) hlive (hyname.trans hname.symm))
    have hopen : ∃ boxes, doMboxOpen s.boxes name.name = .ok (some y, boxes) := by
      have hloop : (probe name.name).find? (fun b => (s.boxes b).userCnt = 0 ||
          CString.strcmp name.name (s.boxes b).name = 0) = some y := hsome
      simp only [doMboxOpen, hloop, hfree, if_true]
      exact ⟨_, if_pos (show (0 : Int) + 1 < 2 ^ 31 by norm_num)⟩
    obtain ⟨boxes, hopen⟩ := hopen
    exact hyb (Option.some.inj (hreturn b hlive hname _ hopen))

/-- In every run whose opens find the mailbox of their name before a free slot,
every name has one mailbox at most, and such an open answers with the mailbox
that is open under its name.  An open that meets a free slot first does not. -/
theorem one_mailbox_per_name {s : MboxTable} (h : Reaches MboxTable.step EventOk boot s) :
    s.UniqueNames ∧ ∀ name : BoxName,
      s.NoHole name.name ↔ s.ReturnsExisting name.name ∧
        ∀ s', s.step (.open name) = some s' → s'.UniqueNames := by
  have hinv := h.invariant Inv inv_boot fun _ _ _ hs hok hstep => hs.step hok hstep
  refine ⟨hinv.unique, fun name => ⟨fun hok => ⟨hinv.returns_existing hok, ?_⟩, fun hkept => ?_⟩⟩
  · intro s' hstep
    exact (hinv.open hok hstep).unique
  · intro b hlive hname
    by_contra hhole
    exact hinv.not_returns_existing hlive hname hhole hkept.1

theorem nameA_nonzero : (0 : UInt8) ∉ [97] := by decide

/-- The name "a", whose hash is 1. -/
def nameA : BoxName := ⟨⟨[97], nameA_nonzero⟩, by simp, by decide⟩

/-- The name "A", whose hash is 1 too. -/
def nameUpperA : BoxName := ⟨⟨[65], by decide⟩, by simp, by decide⟩

/-- Two names with one hash, each in a slot of its own. -/
theorem collision_unique :
    ∃ s, runIf MboxTable.step EventOk boot [.open nameA, .open nameUpperA, .open nameUpperA] =
        some s ∧ s.opens 2 = 2 ∧ s.UniqueNames := by
  have hrun : (runIf MboxTable.step EventOk boot
      [.open nameA, .open nameUpperA, .open nameUpperA]).map (fun s => s.opens 2) = some 2 := by
    decide +kernel
  obtain ⟨s, hs, hopens⟩ := Option.map_eq_some_iff.mp hrun
  exact ⟨s, hs, hopens, (one_mailbox_per_name (reaches_of_runIf hs)).1⟩

/-- The first of the two is closed, and the second is opened again in its slot. -/
theorem reopened_hole_two_mailboxes :
    ∃ s, Reaches MboxTable.step Matched boot s ∧ ¬ s.UniqueNames := by
  have hrun : (runIf MboxTable.step Matched boot
      [.open nameA, .open nameUpperA, .close 1, .open nameUpperA]).map
      (fun s => decide s.UniqueNames) = some false := by
    decide +kernel
  obtain ⟨s, hs, hunique⟩ := Option.map_eq_some_iff.mp hrun
  exact ⟨s, reaches_of_runIf hs, of_decide_eq_false hunique⟩

end MboxTable

end MipsOs.Ipc
