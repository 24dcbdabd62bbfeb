import Mathlib

/-!
# Programs over a block cache

A caller of a block cache gets the page of a block, loads and stores the
content of pages, and commits pages.  `BlockProg` is the syntax of such a
caller: a tree that branches on the page it gets and on the content it loads.
Block numbers and pages are natural numbers, and `B` is the type of the
content.

Two questions about a program are answered on the syntax, one case for each
constructor:

* `Pins` follows the pages that the program holds.  It allows every page and
  every content, so its answers hold over every cache.
* `Sat` is the weakest precondition over a flat store, where the page of a
  block is the block itself.  `flat` runs a program over such a store, and
  `Sat.flat` says that the run ends as `Sat` promises.
-/

namespace MipsOs.Lib

/-- A program that answers a value of `α`. -/
inductive BlockProg (B α : Type) where
  | done (a : α)
  | get (blockId : Nat) (doRead : Bool) (next : Nat → BlockProg B α)
  | load (page : Nat) (next : B → BlockProg B α)
  | store (page : Nat) (x : B) (next : BlockProg B α)
  | commit (page : Nat) (doWrite : Bool) (next : BlockProg B α)

namespace BlockProg

variable {B α β : Type}

/-- The second program runs behind every end of the first. -/
protected def bind : BlockProg B α → (α → BlockProg B β) → BlockProg B β
  | done a, f => f a
  | get b r next, f => get b r fun page => (next page).bind f
  | load page next, f => load page fun x => (next x).bind f
  | store page x next, f => store page x (next.bind f)
  | commit page w next, f => commit page w (next.bind f)

instance : Monad (BlockProg B) where
  pure := done
  bind := BlockProg.bind

theorem bind_done (p : BlockProg B α) : p.bind done = p := by
  induction p with
  | done a => rfl
  | get b r next ih => exact congrArg (get b r) (funext ih)
  | load page next ih => exact congrArg (load page) (funext ih)
  | store page x next ih => exact congrArg (store page x) ih
  | commit page w next ih => exact congrArg (commit page w) ih

theorem bind_bind {γ : Type} (p : BlockProg B α) (f : α → BlockProg B β)
    (g : β → BlockProg B γ) : (p.bind f).bind g = p.bind fun a => (f a).bind g := by
  induction p with
  | done a => rfl
  | get b r next ih => exact congrArg (get b r) (funext ih)
  | load page next ih => exact congrArg (load page) (funext ih)
  | store page x next ih => exact congrArg (store page x) ih
  | commit page w next ih => exact congrArg (commit page w) ih

instance : LawfulMonad (BlockProg B) :=
  LawfulMonad.mk' (BlockProg B) bind_done (fun _ _ => rfl) bind_bind

/-- `block_get` -/
def blockGet (blockId : Nat) (doRead : Bool) : BlockProg B Nat := get blockId doRead done

/-- The content of a page. -/
def read (page : Nat) : BlockProg B B := load page done

/-- Replace the content of a page. -/
def write (page : Nat) (x : B) : BlockProg B Unit := store page x (done ())

/-- `block_commit` -/
def blockCommit (page : Nat) (doWrite : Bool) : BlockProg B Unit :=
  commit page doWrite (done ())

/-! ## The pages that a program holds -/

/-- Starting with the pages `held`, the program never holds `limit` pages
when it gets another one, and it ends with an answer and pages that satisfy
`Q`. -/
def Pins (limit : Nat) : BlockProg B α → List Nat → (α → List Nat → Prop) → Prop
  | done a, held, Q => Q a held
  | get _ _ next, held, Q => held.length < limit ∧ ∀ page, (next page).Pins limit (page :: held) Q
  | load _ next, held, Q => ∀ x, (next x).Pins limit held Q
  | store _ _ next, held, Q => next.Pins limit held Q
  | commit page _ next, held, Q => next.Pins limit (held.erase page) Q

section Pins

variable {limit : Nat} {held : List Nat} {p : BlockProg B α} {f : α → BlockProg B β}

theorem Pins.mono {Q R : α → List Nat → Prop} (h : p.Pins limit held Q)
    (hQR : ∀ a l, Q a l → R a l) : p.Pins limit held R := by
  induction p generalizing held with
  | done a => exact hQR a held h
  | get b r next ih => exact ⟨h.1, fun page => ih page (h.2 page)⟩
  | load page next ih => exact fun x => ih x (h x)
  | store page x next ih => exact ih h
  | commit page w next ih => exact ih h

/-- What a program does after another one. -/
theorem pins_bind {Q : β → List Nat → Prop} :
    (p >>= f).Pins limit held Q ↔
      p.Pins limit held fun a l => (f a).Pins limit l Q := by
  show (p.bind f).Pins limit held Q ↔ _
  induction p generalizing held with
  | done a => exact Iff.rfl
  | get b r next ih => exact and_congr_right fun _ => forall_congr' fun page => ih page
  | load page next ih => exact forall_congr' fun x => ih x
  | store page x next ih => exact ih
  | commit page w next ih => exact ih

variable {Q : α → List Nat → Prop}

@[simp] theorem pins_pure (a : α) :
    (pure a : BlockProg B α).Pins limit held Q ↔ Q a held := Iff.rfl

@[simp] theorem pins_blockGet (b : Nat) (r : Bool) (Q : Nat → List Nat → Prop) :
    (blockGet b r : BlockProg B Nat).Pins limit held Q ↔
      held.length < limit ∧ ∀ page, Q page (page :: held) := Iff.rfl

@[simp] theorem pins_read (page : Nat) (Q : B → List Nat → Prop) :
    (read page).Pins limit held Q ↔ ∀ x, Q x held := Iff.rfl

@[simp] theorem pins_write (page : Nat) (x : B) (Q : Unit → List Nat → Prop) :
    (write page x).Pins limit held Q ↔ Q () held := Iff.rfl

@[simp] theorem pins_blockCommit (page : Nat) (w : Bool) (Q : Unit → List Nat → Prop) :
    (blockCommit page w : BlockProg B Unit).Pins limit held Q ↔ Q () (held.erase page) :=
  Iff.rfl

end Pins

/-- The program holds at most `n` further pages, and it commits every page
that it gets. -/
def Balanced (n : Nat) (p : BlockProg B α) : Prop :=
  ∀ limit held (Q : α → List Nat → Prop),
    held.length + n ≤ limit → (∀ a, Q a held) → p.Pins limit held Q

section Balanced

variable {n m : Nat} {p : BlockProg B α} {f : α → BlockProg B β}

theorem Balanced.pins {limit : Nat} {held : List Nat} {Q : α → List Nat → Prop}
    (h : p.Balanced n) (hlen : held.length + n ≤ limit) (hQ : ∀ a, Q a held) :
    p.Pins limit held Q :=
  h limit held Q hlen hQ

theorem Balanced.mono (h : p.Balanced n) (hnm : n ≤ m) : p.Balanced m :=
  fun limit held Q hlen hQ => h limit held Q (by omega) hQ

theorem balanced_pure (a : α) : (pure a : BlockProg B α).Balanced n :=
  fun _ _ _ _ hQ => hQ a

theorem balanced_read (page : Nat) : (read page : BlockProg B B).Balanced n :=
  fun _ _ _ _ hQ => hQ

theorem balanced_write (page : Nat) (x : B) : (write page x).Balanced n :=
  fun _ _ _ _ hQ => hQ ()

theorem Balanced.bind (hp : p.Balanced n) (hf : ∀ a, (f a).Balanced n) :
    (p >>= f).Balanced n := by
  intro limit held Q hlen hQ
  apply pins_bind.mpr
  exact hp limit held _ hlen fun a => hf a limit held Q hlen hQ

/-- A page that is got, used and committed. -/
theorem balanced_get {b : Nat} {r : Bool} {g : Nat → BlockProg B α}
    (h : ∀ page limit held (Q : α → List Nat → Prop), held.length + n ≤ limit →
      (∀ a, Q a held) → (g page).Pins limit (page :: held) Q) (hn : 0 < n) :
    (blockGet b r >>= g).Balanced n := by
  intro limit held Q hlen hQ
  rw [pins_bind, pins_blockGet]
  refine ⟨by omega, fun page => ?_⟩
  exact h page limit held Q hlen hQ

end Balanced

/-! ## Flat stores -/

/-- A block that is not read may have any content: the content `some x`
arrives with it.  With `none` it had been cached and keeps its content. -/
def arrive (s : Nat → B) (blockId : Nat) (content : Option B) : Nat → B :=
  match content with
  | none => s
  | some x => Function.update s blockId x

/-- Run a program over a flat store.  The list says what the blocks hold that
the program gets and does not read. -/
def flat : BlockProg B α → List (Option B) → (Nat → B) → α × List (Option B) × (Nat → B)
  | done a, unread, s => (a, unread, s)
  | get b true next, unread, s => (next b).flat unread s
  | get b false next, unread, s => (next b).flat unread.tail (arrive s b unread.head?.join)
  | load page next, unread, s => (next (s page)).flat unread s
  | store page x next, unread, s => next.flat unread (Function.update s page x)
  | commit _ _ next, unread, s => next.flat unread s

/-- A run over a flat store is a run of the parts. -/
theorem flat_bind (p : BlockProg B α) (f : α → BlockProg B β) (unread : List (Option B))
    (s : Nat → B) :
    (p >>= f).flat unread s =
      (f (p.flat unread s).1).flat (p.flat unread s).2.1 (p.flat unread s).2.2 := by
  show (p.bind f).flat unread s = _
  induction p generalizing unread s with
  | done a => rfl
  | get b r next ih =>
    cases r with
    | true => exact ih b unread s
    | false => exact ih b unread.tail (arrive s b unread.head?.join)
  | load page next ih => exact ih (s page) unread s
  | store page x next ih => exact ih unread (Function.update s page x)
  | commit page w next ih => exact ih unread s

/-- Two programs that begin alike, with related rests. -/
theorem flat_bind_map {γ : Type} {g : β → γ} {f : α → BlockProg B β} {f' : α → BlockProg B γ}
    (p : BlockProg B α)
    (h : ∀ a unread s, (f' a).flat unread s = ((f a).flat unread s).map g id)
    (unread : List (Option B)) (s : Nat → B) :
    (p >>= f').flat unread s = ((p >>= f).flat unread s).map g id := by
  rw [flat_bind, flat_bind, h]

@[simp] theorem flat_pure (a : α) (unread : List (Option B)) (s : Nat → B) :
    (pure a : BlockProg B α).flat unread s = (a, unread, s) := rfl

@[simp] theorem flat_blockGet_read (b : Nat) (unread : List (Option B)) (s : Nat → B) :
    (blockGet b true : BlockProg B Nat).flat unread s = (b, unread, s) := rfl

@[simp] theorem flat_read (page : Nat) (unread : List (Option B)) (s : Nat → B) :
    (read page).flat unread s = (s page, unread, s) := rfl

@[simp] theorem flat_blockGet (b : Nat) (unread : List (Option B)) (s : Nat → B) :
    (blockGet b false : BlockProg B Nat).flat unread s =
      (b, unread.tail, arrive s b unread.head?.join) := rfl

@[simp] theorem flat_write (page : Nat) (x : B) (unread : List (Option B)) (s : Nat → B) :
    (write page x).flat unread s = ((), unread, Function.update s page x) := rfl

@[simp] theorem flat_blockCommit (page : Nat) (w : Bool) (unread : List (Option B))
    (s : Nat → B) : (blockCommit page w : BlockProg B Unit).flat unread s = ((), unread, s) := rfl

/-- The pages that a run stores to, in order. -/
def stores : BlockProg B α → List (Option B) → (Nat → B) → List Nat
  | done _, _, _ => []
  | get b true next, unread, s => (next b).stores unread s
  | get b false next, unread, s => (next b).stores unread.tail (arrive s b unread.head?.join)
  | load page next, unread, s => (next (s page)).stores unread s
  | store page x next, unread, s => page :: next.stores unread (Function.update s page x)
  | commit _ _ next, unread, s => next.stores unread s

theorem stores_bind (p : BlockProg B α) (f : α → BlockProg B β) (unread : List (Option B))
    (s : Nat → B) :
    (p >>= f).stores unread s =
      p.stores unread s ++
        (f (p.flat unread s).1).stores (p.flat unread s).2.1 (p.flat unread s).2.2 := by
  show (p.bind f).stores unread s = _
  induction p generalizing unread s with
  | done a => rfl
  | get b r next ih =>
    cases r with
    | true => exact ih b unread s
    | false => exact ih b unread.tail (arrive s b unread.head?.join)
  | load page next ih => exact ih (s page) unread s
  | store page x next ih =>
    show page :: ((next.bind f).stores unread (Function.update s page x)) = _
    rw [ih]
    rfl
  | commit page w next ih => exact ih unread s

/-- A store of the first part. -/
theorem mem_stores_left {p : BlockProg B α} (f : α → BlockProg B β) {b : Nat}
    {unread : List (Option B)} {s : Nat → B} (h : b ∈ p.stores unread s) :
    b ∈ (p >>= f).stores unread s := by
  rw [stores_bind]
  exact List.mem_append_left _ h

/-- A store of the second part. -/
theorem mem_stores_right {p : BlockProg B α} {f : α → BlockProg B β} {a : α} {b : Nat}
    {unread rest : List (Option B)} {s t : Nat → B} (hflat : p.flat unread s = (a, rest, t))
    (h : b ∈ (f a).stores rest t) : b ∈ (p >>= f).stores unread s := by
  rw [stores_bind, hflat]
  exact List.mem_append_right _ h

@[simp] theorem stores_write (page : Nat) (x : B) (unread : List (Option B)) (s : Nat → B) :
    (write page x).stores unread s = [page] := rfl

/-- The blocks that a run gets, in order. -/
def gets : BlockProg B α → List (Option B) → (Nat → B) → List Nat
  | done _, _, _ => []
  | get b true next, unread, s => b :: (next b).gets unread s
  | get b false next, unread, s =>
    b :: (next b).gets unread.tail (arrive s b unread.head?.join)
  | load page next, unread, s => (next (s page)).gets unread s
  | store page x next, unread, s => next.gets unread (Function.update s page x)
  | commit _ _ next, unread, s => next.gets unread s

theorem gets_bind (p : BlockProg B α) (f : α → BlockProg B β) (unread : List (Option B))
    (s : Nat → B) :
    (p >>= f).gets unread s =
      p.gets unread s ++
        (f (p.flat unread s).1).gets (p.flat unread s).2.1 (p.flat unread s).2.2 := by
  show (p.bind f).gets unread s = _
  induction p generalizing unread s with
  | done a => rfl
  | get b r next ih =>
    cases r with
    | true => exact congrArg (b :: ·) (ih b unread s)
    | false => exact congrArg (b :: ·) (ih b unread.tail (arrive s b unread.head?.join))
  | load page next ih => exact ih (s page) unread s
  | store page x next ih => exact ih unread (Function.update s page x)
  | commit page w next ih => exact ih unread s

@[simp] theorem gets_pure (a : α) (unread : List (Option B)) (s : Nat → B) :
    (pure a : BlockProg B α).gets unread s = [] := rfl

@[simp] theorem gets_blockGet_read (b : Nat) (unread : List (Option B)) (s : Nat → B) :
    (blockGet b true : BlockProg B Nat).gets unread s = [b] := rfl

@[simp] theorem gets_read (page : Nat) (unread : List (Option B)) (s : Nat → B) :
    (read page).gets unread s = [] := rfl

@[simp] theorem gets_write (page : Nat) (x : B) (unread : List (Option B)) (s : Nat → B) :
    (write page x).gets unread s = [] := rfl

@[simp] theorem gets_blockCommit (page : Nat) (w : Bool) (unread : List (Option B))
    (s : Nat → B) : (blockCommit page w : BlockProg B Unit).gets unread s = [] := rfl

/-- The program reads every block that it gets. -/
def Reads : BlockProg B α → Prop
  | done _ => True
  | get _ r next => r = true ∧ ∀ page, (next page).Reads
  | load _ next => ∀ x, (next x).Reads
  | store _ _ next => next.Reads
  | commit _ _ next => next.Reads

theorem Reads.bind {p : BlockProg B α} {f : α → BlockProg B β} (hp : p.Reads)
    (hf : ∀ a, (f a).Reads) : (p >>= f).Reads := by
  show (p.bind f).Reads
  induction p with
  | done a => exact hf a
  | get b r next ih => exact ⟨hp.1, fun page => ih page (hp.2 page)⟩
  | load page next ih => exact fun x => ih x (hp x)
  | store page x next ih => exact ih hp
  | commit page w next ih => exact ih hp

/-- Such a program does not ask what the other blocks hold. -/
theorem Reads.flat_unread {p : BlockProg B α} (hp : p.Reads) (unread : List (Option B))
    (s : Nat → B) : (p.flat unread s).2.1 = unread := by
  induction p generalizing s with
  | done a => rfl
  | get b r next ih =>
    obtain ⟨rfl, hnext⟩ := hp
    exact ih b (hnext b) s
  | load page next ih => exact ih (s page) (hp (s page)) s
  | store page x next ih => exact ih hp (Function.update s page x)
  | commit page w next ih => exact ih hp s

/-- The weakest precondition over flat stores. -/
def Sat : BlockProg B α → (Nat → B) → (α → (Nat → B) → Prop) → Prop
  | done a, s, Q => Q a s
  | get b true next, s, Q => (next b).Sat s Q
  | get b false next, s, Q => ∀ x, (next b).Sat (Function.update s b x) Q
  | load page next, s, Q => (next (s page)).Sat s Q
  | store page x next, s, Q => next.Sat (Function.update s page x) Q
  | commit _ _ next, s, Q => next.Sat s Q

section Sat

variable {s : Nat → B} {p : BlockProg B α} {f : α → BlockProg B β}

theorem Sat.mono {Q R : α → (Nat → B) → Prop} (h : p.Sat s Q)
    (hQR : ∀ a t, Q a t → R a t) : p.Sat s R := by
  induction p generalizing s with
  | done a => exact hQR a s h
  | get b r next ih =>
    cases r with
    | true => exact ih b h
    | false => exact fun x => ih b (h x)
  | load page next ih => exact ih (s page) h
  | store page x next ih => exact ih h
  | commit page w next ih => exact ih h

theorem sat_bind {Q : β → (Nat → B) → Prop} :
    (p >>= f).Sat s Q ↔ p.Sat s fun a t => (f a).Sat t Q := by
  show (p.bind f).Sat s Q ↔ _
  induction p generalizing s with
  | done a => exact Iff.rfl
  | get b r next ih =>
    cases r with
    | true => exact ih b
    | false => exact forall_congr' fun x => ih b
  | load page next ih => exact ih (s page)
  | store page x next ih => exact ih
  | commit page w next ih => exact ih

variable {Q : α → (Nat → B) → Prop}

@[simp] theorem sat_pure (a : α) : (pure a : BlockProg B α).Sat s Q ↔ Q a s := Iff.rfl

@[simp] theorem sat_blockGet_read (b : Nat) (Q : Nat → (Nat → B) → Prop) :
    (blockGet b true : BlockProg B Nat).Sat s Q ↔ Q b s := Iff.rfl

@[simp] theorem sat_blockGet (b : Nat) (Q : Nat → (Nat → B) → Prop) :
    (blockGet b false : BlockProg B Nat).Sat s Q ↔ ∀ x, Q b (Function.update s b x) := Iff.rfl

@[simp] theorem sat_read (page : Nat) (Q : B → (Nat → B) → Prop) :
    (read page).Sat s Q ↔ Q (s page) s := Iff.rfl

@[simp] theorem sat_write (page : Nat) (x : B) (Q : Unit → (Nat → B) → Prop) :
    (write page x).Sat s Q ↔ Q () (Function.update s page x) := Iff.rfl

@[simp] theorem sat_blockCommit (page : Nat) (w : Bool) (Q : Unit → (Nat → B) → Prop) :
    (blockCommit page w : BlockProg B Unit).Sat s Q ↔ Q () s := Iff.rfl

/-- Every run over a flat store ends as promised. -/
theorem Sat.flat (h : p.Sat s Q) (unread : List (Option B)) :
    Q (p.flat unread s).1 (p.flat unread s).2.2 := by
  induction p generalizing s unread with
  | done a => exact h
  | get b r next ih =>
    cases r with
    | true => exact ih b h unread
    | false =>
      show Q ((next b).flat unread.tail (arrive s b unread.head?.join)).1
        ((next b).flat unread.tail (arrive s b unread.head?.join)).2.2
      refine ih b ?_ unread.tail
      unfold arrive
      split
      · have hsame := h (s b)
        rwa [Function.update_eq_self] at hsame
      · exact h _
  | load page next ih => exact ih (s page) h unread
  | store page x next ih => exact ih h unread
  | commit page w next ih => exact ih h unread

/-- A program that ends as promised in every run. -/
theorem sat_iff_flat : p.Sat s Q ↔ ∀ unread, Q (p.flat unread s).1 (p.flat unread s).2.2 := by
  constructor
  · exact Sat.flat
  · intro h
    induction p generalizing s with
    | done a => exact h []
    | get b r next ih =>
      cases r with
      | true => exact ih b h
      | false => exact fun x => ih b fun unread => h (some x :: unread)
    | load page next ih => exact ih (s page) h
    | store page x next ih => exact ih h
    | commit page w next ih => exact ih h

end Sat

end BlockProg

end MipsOs.Lib
