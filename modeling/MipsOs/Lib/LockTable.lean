import Mathlib

/-!
# A table of mutexes with direct hand-over

Each mutex is locked or not and has a queue of the clients that wait for it.
A release of a mutex somebody waits for leaves it locked and takes the first
client out of the queue: the mutex is handed over.

Who holds a mutex is not part of the table.  `Holds.next` reads it off two
successive tables: a client that leaves the queue of a mutex alive has
obtained the mutex.

Two invariants relate the table to the holders.  `Exclusive` says that a
mutex has at most one holder and is locked when it has one.  `Attended` says
that a locked mutex has a holder.  Both are kept by every operation of
well-behaved clients.  The death of a client releases a list of mutexes;
`Exclusive.death` and `Attended.death` say for which lists the invariants
survive.
-/

namespace MipsOs.Lib

variable {L P : Type} [DecidableEq L] [DecidableEq P]

/-- Which mutexes are locked, and who waits for each. -/
@[ext]
structure LockTable (L P : Type) where
  locked : L → Bool
  queue : L → List P

namespace LockTable

/-- Lock an open mutex. -/
def lock (t : LockTable L P) (l : L) : LockTable L P :=
  { t with locked := Function.update t.locked l true }

/-- A client joins the queue of a mutex. -/
def block (t : LockTable L P) (l : L) (p : P) : LockTable L P :=
  { t with queue := Function.update t.queue l (t.queue l ++ [p]) }

/-- Open the mutex, or hand it to the first client in its queue. -/
def release (t : LockTable L P) (l : L) : LockTable L P :=
  match t.queue l with
  | [] => { t with locked := Function.update t.locked l false }
  | _ :: rest => { t with queue := Function.update t.queue l rest }

/-- A client leaves every queue. -/
def remove (t : LockTable L P) (p : P) : LockTable L P :=
  { t with queue := fun l => (t.queue l).erase p }

/-- The death of a client that is recorded as the holder of `ls`. -/
def death (t : LockTable L P) (p : P) (ls : List L) : LockTable L P :=
  ls.foldl release (t.remove p)

omit [DecidableEq P] in
theorem release_queue (t : LockTable L P) (l m : L) :
    (t.release l).queue m = if m = l then (t.queue l).tail else t.queue m := by
  unfold release
  split
  · rename_i hnil
    rcases eq_or_ne m l with rfl | hm
    · simp [hnil]
    · simp [hm]
  · rename_i w rest hcons
    rcases eq_or_ne m l with rfl | hm
    · simp [hcons]
    · simp [hm]

omit [DecidableEq P] in
theorem release_locked (t : LockTable L P) (l m : L) :
    (t.release l).locked m = (t.locked m && !(m = l && (t.queue l).isEmpty)) := by
  unfold release
  split
  · rename_i hnil
    rcases eq_or_ne m l with rfl | hm
    · simp [hnil]
    · simp [hm]
  · rename_i w rest hcons
    simp [hcons]

omit [DecidableEq P] in
/-- A list of releases takes as many clients out of a queue as the mutex is
listed. -/
theorem foldl_release_queue (ls : List L) (t : LockTable L P) (l : L) :
    (ls.foldl release t).queue l = (t.queue l).drop (ls.count l) := by
  induction ls generalizing t with
  | nil => simp
  | cons m rest ih =>
    rw [List.foldl_cons, ih, release_queue, List.count_cons]
    rcases eq_or_ne m l with rfl | hm
    · simp
    · simp [hm, Ne.symm hm]

omit [DecidableEq P] in
/-- A list of releases opens a mutex that is listed more often than clients
wait for it. -/
theorem foldl_release_locked (ls : List L) (t : LockTable L P) (l : L) :
    (ls.foldl release t).locked l =
      (t.locked l && !decide ((t.queue l).length < ls.count l)) := by
  induction ls generalizing t with
  | nil => simp
  | cons m rest ih =>
    rw [List.foldl_cons, ih, release_queue, release_locked, List.count_cons]
    rcases eq_or_ne m l with rfl | hm
    · cases hq : t.queue m with
      | nil => simp
      | cons w tail => simp
    · simp [hm, Ne.symm hm]

theorem death_queue (t : LockTable L P) (p : P) (ls : List L) (l : L) :
    (t.death p ls).queue l = ((t.queue l).erase p).drop (ls.count l) :=
  foldl_release_queue ls _ l

theorem death_locked (t : LockTable L P) (p : P) (ls : List L) (l : L) :
    (t.death p ls).locked l =
      (t.locked l && !decide (((t.queue l).erase p).length < ls.count l)) :=
  foldl_release_locked ls _ l

end LockTable

/-! ## Holders -/

/-- Who holds which mutex. -/
abbrev Holds (L P : Type) := L → P → Bool

/-- The holders after the table went from `t` to `t'`.  `gives l p` says that
`p` released `l`, and `takes l p` that `p` locked the open mutex `l`. -/
def Holds.next (holds : Holds L P) (t t' : LockTable L P) (alive : P → Bool)
    (gives takes : L → P → Bool) : Holds L P :=
  fun l p =>
    (holds l p && alive p && !gives l p) ||
      (decide (p ∈ t.queue l) && !decide (p ∈ t'.queue l) && alive p) ||
      takes l p

/-- Nobody. -/
def noOne : L → P → Bool := fun _ _ => false

/-- The client `p`, for the mutex `l`. -/
def only (l : L) (p : P) : L → P → Bool := fun m q => m = l && q = p

omit [DecidableEq L] in
theorem Holds.next_iff {holds : Holds L P} {t t' : LockTable L P} {alive : P → Bool}
    {gives takes : L → P → Bool} {l : L} {p : P} :
    holds.next t t' alive gives takes l p = true ↔
      (holds l p = true ∧ alive p = true ∧ gives l p = false) ∨
      (p ∈ t.queue l ∧ p ∉ t'.queue l ∧ alive p = true) ∨ takes l p = true := by
  simp [Holds.next, and_assoc, or_assoc]

/-- The queues hold clients that are alive, each once. -/
structure Orderly (t : LockTable L P) (alive : P → Bool) : Prop where
  nodup : ∀ l, (t.queue l).Nodup
  alive : ∀ l, ∀ p ∈ t.queue l, alive p = true

/-- A mutex has at most one holder and is locked when it has one.  An open
mutex has no waiters. -/
structure Exclusive (t : LockTable L P) (alive : P → Bool) (holds : Holds L P) : Prop where
  unique : ∀ l p q, holds l p = true → holds l q = true → p = q
  held_locked : ∀ l p, holds l p = true → t.locked l = true
  open_empty : ∀ l, t.locked l = false → t.queue l = []
  held_alive : ∀ l p, holds l p = true → alive p = true

/-- A locked mutex has a holder.  An open mutex has no waiters. -/
structure Attended (t : LockTable L P) (alive : P → Bool) (holds : Holds L P) : Prop where
  locked_held : ∀ l, t.locked l = true → ∃ p, holds l p = true
  open_empty : ∀ l, t.locked l = false → t.queue l = []
  held_alive : ∀ l p, holds l p = true → alive p = true

section Steps

variable {t : LockTable L P} {alive alive' : P → Bool} {holds : Holds L P} {l : L} {p : P}

omit [DecidableEq L] in
/-- The holders do not change when nothing happens to the table. -/
theorem Holds.next_stay (hheld : ∀ l p, holds l p = true → alive' p = true) :
    holds.next t t alive' noOne noOne = holds := by
  funext l p
  rw [Bool.eq_iff_iff, Holds.next_iff]
  simp only [noOne, Bool.false_eq_true, or_false, and_true]
  constructor
  · rintro (⟨h, _⟩ | ⟨hin, hout, _⟩)
    · exact h
    · exact absurd hin hout
  · intro h
    exact Or.inl ⟨h, hheld l p h⟩

/-- Joining a queue makes nobody a holder. -/
theorem Holds.next_block (hheld : ∀ l p, holds l p = true → alive' p = true) :
    holds.next t (t.block l p) alive' noOne noOne = holds := by
  funext m q
  rw [Bool.eq_iff_iff, Holds.next_iff]
  simp only [noOne, Bool.false_eq_true, or_false, and_true]
  constructor
  · rintro (⟨h, _⟩ | ⟨hin, hout, _⟩)
    · exact h
    · refine absurd ?_ hout
      rcases eq_or_ne m l with rfl | hm
      · simp [LockTable.block, hin]
      · simpa [LockTable.block, hm] using hin
  · intro h
    exact Or.inl ⟨h, hheld m q h⟩

/-- Locking an open mutex adds one holder. -/
theorem Holds.next_lock_iff (hheld : ∀ l p, holds l p = true → alive' p = true) {m : L}
    {q : P} :
    holds.next t (t.lock l) alive' noOne (only l p) m q = true ↔
      holds m q = true ∨ m = l ∧ q = p := by
  rw [Holds.next_iff]
  simp only [noOne, only, Bool.and_eq_true, decide_eq_true_eq, and_true]
  constructor
  · rintro (⟨h, _⟩ | ⟨hin, hout, _⟩ | h)
    · exact Or.inl h
    · exact absurd hin hout
    · exact Or.inr h
  · rintro (h | h)
    · exact Or.inl ⟨h, hheld m q h⟩
    · exact Or.inr (Or.inr h)

/-- A release takes the mutex from its holder and gives it to the first
waiter. -/
theorem Holds.next_release_iff (ht : Orderly t alive')
    (hheld : ∀ l p, holds l p = true → alive' p = true) {m : L} {q : P} :
    holds.next t (t.release l) alive' (only l p) noOne m q = true ↔
      holds m q = true ∧ ¬ (m = l ∧ q = p) ∨ m = l ∧ (t.queue l).head? = some q := by
  have hleft : q ∈ t.queue m ∧ q ∉ (t.release l).queue m ↔
      m = l ∧ (t.queue l).head? = some q := by
    rw [LockTable.release_queue]
    rcases eq_or_ne m l with rfl | hm
    · have hnodup := ht.nodup m
      cases hq : t.queue m with
      | nil => simp
      | cons w rest =>
        rw [hq] at hnodup
        have hw := (List.nodup_cons.mp hnodup).1
        simp only [List.mem_cons, if_true, List.tail_cons, List.head?_cons,
          Option.some.injEq, true_and]
        constructor
        · rintro ⟨rfl | hmem, hnot⟩
          · rfl
          · exact absurd hmem hnot
        · rintro rfl
          exact ⟨Or.inl rfl, hw⟩
    · simp [hm]
  rw [Holds.next_iff]
  simp only [noOne, Bool.false_eq_true, or_false]
  constructor
  · rintro (⟨h, _, hgives⟩ | ⟨hin, hout, _⟩)
    · exact Or.inl ⟨h, by simpa [only] using hgives⟩
    · exact Or.inr (hleft.mp ⟨hin, hout⟩)
  · rintro (⟨h, hne⟩ | h)
    · exact Or.inl ⟨h, hheld m q h, by simpa [only] using hne⟩
    · obtain ⟨hin, hout⟩ := hleft.mpr h
      exact Or.inr ⟨hin, hout, ht.alive m q hin⟩

/-- The death of a client hands each mutex to as many waiters as it is listed. -/
theorem Holds.next_death_iff (ht : Orderly t alive) {ls : List L}
    (hdead : alive' p = false) (halive : ∀ q, q ≠ p → alive q = true → alive' q = true)
    (hheld : ∀ l p, holds l p = true → alive p = true) {m : L} {q : P} :
    holds.next t (t.death p ls) alive' noOne noOne m q = true ↔
      q ≠ p ∧ (holds m q = true ∨ q ∈ ((t.queue m).erase p).take (ls.count m)) := by
  have hne : alive' q = true → q ≠ p := by
    rintro h rfl
    rw [hdead] at h
    cases h
  have hnodup := (ht.nodup m).erase p
  have hmem : q ≠ p → (q ∈ (t.queue m).erase p ↔ q ∈ t.queue m) := fun hq =>
    List.mem_erase_of_ne hq
  have hsplit : q ∈ (t.queue m).erase p → (q ∉ ((t.queue m).erase p).drop (ls.count m) ↔
      q ∈ ((t.queue m).erase p).take (ls.count m)) := by
    intro hin
    have happ := List.take_append_drop (ls.count m) ((t.queue m).erase p)
    have hdisj : ∀ x ∈ ((t.queue m).erase p).take (ls.count m),
        x ∉ ((t.queue m).erase p).drop (ls.count m) := by
      intro x hx hx'
      rw [← happ] at hnodup
      exact (List.nodup_append.mp hnodup).2.2 x hx x hx' rfl
    constructor
    · intro hout
      rw [← happ, List.mem_append] at hin
      exact hin.resolve_right hout
    · intro h
      exact hdisj q h
  rw [Holds.next_iff, LockTable.death_queue]
  simp only [noOne, Bool.false_eq_true, or_false, and_true]
  constructor
  · rintro (⟨h, hal⟩ | ⟨hin, hout, hal⟩)
    · exact ⟨hne hal, Or.inl h⟩
    · have hin' := (hmem (hne hal)).mpr hin
      exact ⟨hne hal, Or.inr ((hsplit hin').mp hout)⟩
  · rintro ⟨hq, h | h⟩
    · exact Or.inl ⟨h, halive q hq (hheld m q h)⟩
    · have hin' := List.mem_of_mem_take h
      have hin := (hmem hq).mp hin'
      exact Or.inr ⟨hin, (hsplit hin').mpr h, halive q hq (ht.alive m q hin)⟩

/-- The holders after a death are alive. -/
theorem Holds.next_death_alive (ht : Orderly t alive) {ls : List L}
    (hdead : alive' p = false) (halive : ∀ q, q ≠ p → alive q = true → alive' q = true)
    (hheld : ∀ l p, holds l p = true → alive p = true) {m : L} {q : P}
    (h : holds.next t (t.death p ls) alive' noOne noOne m q = true) : alive' q = true := by
  obtain ⟨hqp, hq⟩ := (Holds.next_death_iff ht hdead halive hheld).mp h
  rcases hq with hq | hq
  · exact halive q hqp (hheld m q hq)
  · exact halive q hqp (ht.alive m q (List.mem_of_mem_erase (List.mem_of_mem_take hq)))

/-- The first waiter obtains a listed mutex when a client dies. -/
theorem death_heir (ht : Orderly t alive) {ls : List L} {w : P} (hdead : alive' p = false)
    (halive : ∀ q, q ≠ p → alive q = true → alive' q = true)
    (hheld : ∀ l p, holds l p = true → alive p = true) (hl : l ∈ ls)
    (hw : ((t.queue l).erase p).head? = some w) :
    holds.next t (t.death p ls) alive' noOne noOne l w = true := by
  have hmem : w ∈ (t.queue l).erase p := List.mem_of_head? hw
  have hwp : w ≠ p := by
    rintro rfl
    exact (ht.nodup l).not_mem_erase hmem
  refine (Holds.next_death_iff ht hdead halive hheld).mpr ⟨hwp, Or.inr ?_⟩
  have hpos := List.count_pos_iff.mpr hl
  obtain ⟨n, hn⟩ : ∃ n, ls.count l = n + 1 := ⟨ls.count l - 1, by omega⟩
  cases hqueue : (t.queue l).erase p with
  | nil =>
    rw [hqueue] at hw
    cases hw
  | cons v rest =>
    rw [hqueue] at hw
    obtain rfl : v = w := Option.some.inj hw
    rw [hn]
    simp

/-! ## At most one holder -/

namespace Exclusive

omit [DecidableEq L] in
theorem stay (h : Exclusive t alive holds) (halive : ∀ q, alive q = true → alive' q = true) :
    Exclusive t alive' (holds.next t t alive' noOne noOne) := by
  have hheld : ∀ l p, holds l p = true → alive' p = true := fun l p hp =>
    halive p (h.held_alive l p hp)
  rw [Holds.next_stay hheld]
  exact { h with held_alive := hheld }

theorem lock (h : Exclusive t alive holds) (halive : ∀ q, alive q = true → alive' q = true)
    (hopen : t.locked l = false) (hp : alive' p = true) :
    Exclusive (t.lock l) alive' (holds.next t (t.lock l) alive' noOne (only l p)) := by
  have hheld : ∀ l p, holds l p = true → alive' p = true := fun l p hp =>
    halive p (h.held_alive l p hp)
  have hnone : ∀ q, holds l q ≠ true := by
    intro q hq
    rw [h.held_locked l q hq] at hopen
    cases hopen
  refine ⟨?_, ?_, ?_, ?_⟩
  · intro m q r hq hr
    rw [Holds.next_lock_iff hheld] at hq hr
    rcases hq with hq | ⟨rfl, rfl⟩ <;> rcases hr with hr | ⟨hm, rfl⟩
    · exact h.unique m q r hq hr
    · exact absurd (hm ▸ hq) (hnone q)
    · exact absurd hr (hnone r)
    · rfl
  · intro m q hq
    rw [Holds.next_lock_iff hheld] at hq
    rcases eq_or_ne m l with rfl | hm
    · simp [LockTable.lock]
    · rcases hq with hq | ⟨hml, _⟩
      · simpa [LockTable.lock, hm] using h.held_locked m q hq
      · exact absurd hml hm
  · intro m hm
    rcases eq_or_ne m l with rfl | hne
    · simp [LockTable.lock] at hm
    · exact h.open_empty m (by simpa [LockTable.lock, hne] using hm)
  · intro m q hq
    rw [Holds.next_lock_iff hheld] at hq
    rcases hq with hq | ⟨_, rfl⟩
    · exact hheld m q hq
    · exact hp

theorem block (h : Exclusive t alive holds) (halive : ∀ q, alive q = true → alive' q = true)
    (hlocked : t.locked l = true) :
    Exclusive (t.block l p) alive' (holds.next t (t.block l p) alive' noOne noOne) := by
  have hheld : ∀ l p, holds l p = true → alive' p = true := fun l p hp =>
    halive p (h.held_alive l p hp)
  rw [Holds.next_block hheld]
  refine ⟨h.unique, h.held_locked, ?_, hheld⟩
  intro m hm
  have hne : m ≠ l := by
    rintro rfl
    exact absurd (hlocked.symm.trans hm) (by decide)
  simpa [LockTable.block, hne] using h.open_empty m hm

theorem release (h : Exclusive t alive holds) (ht : Orderly t alive)
    (halive : ∀ q, alive q = true → alive' q = true) (hp : holds l p = true) :
    Exclusive (t.release l) alive' (holds.next t (t.release l) alive' (only l p) noOne) := by
  have hheld : ∀ l p, holds l p = true → alive' p = true := fun l p hp =>
    halive p (h.held_alive l p hp)
  have ht' : Orderly t alive' := ⟨ht.nodup, fun l q hq => halive q (ht.alive l q hq)⟩
  have hself : ∀ q, holds.next t (t.release l) alive' (only l p) noOne l q = true →
      (t.queue l).head? = some q := by
    intro q hq
    rw [Holds.next_release_iff ht' hheld] at hq
    rcases hq with ⟨hq, hne⟩ | ⟨_, hq⟩
    · exact absurd ⟨rfl, h.unique l q p hq hp⟩ hne
    · exact hq
  have hother : ∀ m q, m ≠ l →
      holds.next t (t.release l) alive' (only l p) noOne m q = true → holds m q = true := by
    intro m q hm hq
    rw [Holds.next_release_iff ht' hheld] at hq
    rcases hq with ⟨hq, _⟩ | ⟨hml, _⟩
    · exact hq
    · exact absurd hml hm
  refine ⟨?_, ?_, ?_, ?_⟩
  · intro m q r hq hr
    rcases eq_or_ne m l with rfl | hm
    · exact Option.some.inj ((hself q hq).symm.trans (hself r hr))
    · exact h.unique m q r (hother m q hm hq) (hother m r hm hr)
  · intro m q hq
    rw [LockTable.release_locked]
    rcases eq_or_ne m l with rfl | hm
    · have hhead := hself q hq
      rw [h.held_locked m p hp]
      cases hqueue : t.queue m with
      | nil =>
        rw [hqueue] at hhead
        cases hhead
      | cons w rest => simp
    · simp [hm, h.held_locked m q (hother m q hm hq)]
  · intro m hm
    rw [LockTable.release_locked] at hm
    rw [LockTable.release_queue]
    rcases eq_or_ne m l with rfl | hne
    · rw [h.held_locked m p hp] at hm
      have hnil : t.queue m = [] := by simpa using hm
      simp [hnil]
    · rw [if_neg hne]
      exact h.open_empty m (by simpa [hne] using hm)
  · intro m q hq
    rw [Holds.next_release_iff ht' hheld] at hq
    rcases hq with ⟨hq, _⟩ | ⟨rfl, hq⟩
    · exact hheld m q hq
    · exact ht'.alive m q (List.mem_of_head? hq)

/-- The death of a client keeps the invariant when no listed mutex is held by
somebody else, and none is listed twice while a client waits for it. -/
theorem death (h : Exclusive t alive holds) (ht : Orderly t alive) {ls : List L}
    (hdead : alive' p = false) (halive : ∀ q, q ≠ p → alive q = true → alive' q = true)
    (hlisted : ∀ l ∈ ls, (∀ q, holds l q = true → q = p) ∧
      (ls.count l ≤ 1 ∨ (t.queue l).erase p = [])) :
    Exclusive (t.death p ls) alive' (holds.next t (t.death p ls) alive' noOne noOne) := by
  have hiff := @Holds.next_death_iff _ _ _ _ t alive alive' holds p ht ls hdead halive
    h.held_alive
  have hlist : ∀ m q, m ∈ ls →
      holds.next t (t.death p ls) alive' noOne noOne m q = true →
      ls.count m = 1 ∧ ((t.queue m).erase p).head? = some q := by
    intro m q hm hq
    obtain ⟨hqp, hq⟩ := hiff.mp hq
    have hcount := List.count_pos_iff.mpr hm
    rcases hq with hq | hq
    · exact absurd ((hlisted m hm).1 q hq) hqp
    · rcases (hlisted m hm).2 with hle | hnil
      · have hone : ls.count m = 1 := by omega
        refine ⟨hone, ?_⟩
        rw [hone] at hq
        cases hqueue : (t.queue m).erase p with
        | nil => simp [hqueue] at hq
        | cons w rest =>
          rw [hqueue] at hq
          simpa [eq_comm] using hq
      · rw [hnil] at hq
        simp at hq
  have hrest : ∀ m q, m ∉ ls →
      holds.next t (t.death p ls) alive' noOne noOne m q = true → holds m q = true := by
    intro m q hm hq
    obtain ⟨_, hq⟩ := hiff.mp hq
    rw [List.count_eq_zero_of_not_mem hm] at hq
    simpa using hq
  refine ⟨?_, ?_, ?_, ?_⟩
  · intro m q r hq hr
    by_cases hm : m ∈ ls
    · exact Option.some.inj ((hlist m q hm hq).2.symm.trans (hlist m r hm hr).2)
    · exact h.unique m q r (hrest m q hm hq) (hrest m r hm hr)
  · intro m q hq
    rw [LockTable.death_locked]
    by_cases hm : m ∈ ls
    · obtain ⟨hone, hhead⟩ := hlist m q hm hq
      have hlocked : t.locked m = true := by
        by_contra hopen
        have hnil := h.open_empty m (by simpa using hopen)
        rw [hnil] at hhead
        cases hhead
      cases hqueue : (t.queue m).erase p with
      | nil =>
        rw [hqueue] at hhead
        cases hhead
      | cons w rest => simp [hlocked, hone]
    · rw [List.count_eq_zero_of_not_mem hm, h.held_locked m q (hrest m q hm hq)]
      simp
  · intro m hm
    rw [LockTable.death_queue]
    rw [LockTable.death_locked] at hm
    cases hlocked : t.locked m with
    | false => simp [h.open_empty m hlocked]
    | true =>
      have hlt : ((t.queue m).erase p).length < ls.count m := by simpa [hlocked] using hm
      exact List.drop_eq_nil_of_le (Nat.le_of_lt hlt)
  · intro m q hq
    exact Holds.next_death_alive ht hdead halive h.held_alive hq

end Exclusive

/-! ## At least one holder -/

namespace Attended

omit [DecidableEq L] in
theorem stay (h : Attended t alive holds) (halive : ∀ q, alive q = true → alive' q = true) :
    Attended t alive' (holds.next t t alive' noOne noOne) := by
  have hheld : ∀ l p, holds l p = true → alive' p = true := fun l p hp =>
    halive p (h.held_alive l p hp)
  rw [Holds.next_stay hheld]
  exact { h with held_alive := hheld }

theorem lock (h : Attended t alive holds) (halive : ∀ q, alive q = true → alive' q = true)
    (hp : alive' p = true) :
    Attended (t.lock l) alive' (holds.next t (t.lock l) alive' noOne (only l p)) := by
  have hheld : ∀ l p, holds l p = true → alive' p = true := fun l p hp =>
    halive p (h.held_alive l p hp)
  refine ⟨?_, ?_, ?_⟩
  · intro m hm
    rcases eq_or_ne m l with rfl | hne
    · exact ⟨p, (Holds.next_lock_iff hheld).mpr (Or.inr ⟨rfl, rfl⟩)⟩
    · obtain ⟨q, hq⟩ := h.locked_held m (by simpa [LockTable.lock, hne] using hm)
      exact ⟨q, (Holds.next_lock_iff hheld).mpr (Or.inl hq)⟩
  · intro m hm
    rcases eq_or_ne m l with rfl | hne
    · simp [LockTable.lock] at hm
    · exact h.open_empty m (by simpa [LockTable.lock, hne] using hm)
  · intro m q hq
    rw [Holds.next_lock_iff hheld] at hq
    rcases hq with hq | ⟨_, rfl⟩
    · exact hheld m q hq
    · exact hp

theorem block (h : Attended t alive holds) (halive : ∀ q, alive q = true → alive' q = true)
    (hlocked : t.locked l = true) :
    Attended (t.block l p) alive' (holds.next t (t.block l p) alive' noOne noOne) := by
  have hheld : ∀ l p, holds l p = true → alive' p = true := fun l p hp =>
    halive p (h.held_alive l p hp)
  rw [Holds.next_block hheld]
  refine ⟨h.locked_held, ?_, hheld⟩
  intro m hm
  have hne : m ≠ l := by
    rintro rfl
    exact absurd (hlocked.symm.trans hm) (by decide)
  simpa [LockTable.block, hne] using h.open_empty m hm

theorem release (h : Attended t alive holds) (ht : Orderly t alive)
    (halive : ∀ q, alive q = true → alive' q = true) :
    Attended (t.release l) alive' (holds.next t (t.release l) alive' (only l p) noOne) := by
  have hheld : ∀ l p, holds l p = true → alive' p = true := fun l p hp =>
    halive p (h.held_alive l p hp)
  have ht' : Orderly t alive' := ⟨ht.nodup, fun l q hq => halive q (ht.alive l q hq)⟩
  refine ⟨?_, ?_, ?_⟩
  · intro m hm
    rw [LockTable.release_locked] at hm
    rcases eq_or_ne m l with rfl | hne
    · cases hqueue : t.queue m with
      | nil => simp [hqueue] at hm
      | cons w rest =>
        exact ⟨w, (Holds.next_release_iff ht' hheld).mpr (Or.inr ⟨rfl, by rw [hqueue]; rfl⟩)⟩
    · obtain ⟨q, hq⟩ := h.locked_held m (by simpa [hne] using hm)
      exact ⟨q, (Holds.next_release_iff ht' hheld).mpr (Or.inl ⟨hq, fun hmq => hne hmq.1⟩)⟩
  · intro m hm
    rw [LockTable.release_locked] at hm
    rw [LockTable.release_queue]
    rcases eq_or_ne m l with rfl | hne
    · cases hlocked : t.locked m with
      | false => simp [h.open_empty m hlocked]
      | true =>
        have hnil : t.queue m = [] := by simpa [hlocked] using hm
        simp [hnil]
    · rw [if_neg hne]
      exact h.open_empty m (by simpa [hne] using hm)
  · intro m q hq
    rw [Holds.next_release_iff ht' hheld] at hq
    rcases hq with ⟨hq, _⟩ | ⟨rfl, hq⟩
    · exact hheld m q hq
    · exact ht'.alive m q (List.mem_of_head? hq)

/-- The death of a client leaves a holder to every locked mutex exactly when
every locked mutex that the client alone holds is listed. -/
theorem death_locked_held_iff (h : Attended t alive holds) (ht : Orderly t alive) {ls : List L}
    (hdead : alive' p = false) (halive : ∀ q, q ≠ p → alive q = true → alive' q = true) :
    (∀ l, (t.death p ls).locked l = true →
        ∃ q, holds.next t (t.death p ls) alive' noOne noOne l q = true) ↔
      ∀ l, t.locked l = true → (∀ q, holds l q = true → q = p) → l ∈ ls := by
  have hiff := @Holds.next_death_iff _ _ _ _ t alive alive' holds p ht ls hdead halive
    h.held_alive
  constructor
  · intro h' l hl honly
    by_contra hnot
    have hcount := List.count_eq_zero_of_not_mem hnot
    obtain ⟨q, hq⟩ := h' l (by rw [LockTable.death_locked, hcount, hl]; simp)
    obtain ⟨hqp, hq⟩ := hiff.mp hq
    rw [hcount] at hq
    rcases hq with hq | hq
    · exact hqp (honly q hq)
    · simp at hq
  · intro hlisted l hl
    rw [LockTable.death_locked] at hl
    simp only [Bool.and_eq_true, Bool.not_eq_true', decide_eq_false_iff_not, Nat.not_lt] at hl
    obtain ⟨hlocked, hle⟩ := hl
    by_cases honly : ∀ q, holds l q = true → q = p
    · have hpos := List.count_pos_iff.mpr (hlisted l hlocked honly)
      cases hqueue : (t.queue l).erase p with
      | nil =>
        rw [hqueue, List.length_nil] at hle
        omega
      | cons w rest =>
        have hhead : ((t.queue l).erase p).head? = some w := by simp [hqueue]
        exact ⟨w, death_heir ht hdead halive h.held_alive (hlisted l hlocked honly) hhead⟩
    · push Not at honly
      obtain ⟨q, hq, hqp⟩ := honly
      exact ⟨q, hiff.mpr ⟨hqp, Or.inl hq⟩⟩

theorem death (h : Attended t alive holds) (ht : Orderly t alive) {ls : List L}
    (hdead : alive' p = false) (halive : ∀ q, q ≠ p → alive q = true → alive' q = true)
    (hlisted : ∀ l, t.locked l = true → (∀ q, holds l q = true → q = p) → l ∈ ls) :
    Attended (t.death p ls) alive' (holds.next t (t.death p ls) alive' noOne noOne) := by
  refine ⟨(h.death_locked_held_iff ht hdead halive).mpr hlisted, ?_, ?_⟩
  · intro l hl
    rw [LockTable.death_queue]
    rw [LockTable.death_locked] at hl
    cases hlocked : t.locked l with
    | false => simp [h.open_empty l hlocked]
    | true =>
      have hlt : ((t.queue l).erase p).length < ls.count l := by simpa [hlocked] using hl
      exact List.drop_eq_nil_of_le (Nat.le_of_lt hlt)
  · intro l q hq
    exact Holds.next_death_alive ht hdead halive h.held_alive hq

end Attended

end Steps

end MipsOs.Lib
