import MipsOs.Fs.Lasting

/-!
# Copies of an inode

An open file has a copy of its inode, and `find_data_block` gives addresses to the
slots of the copy.  So a file has several inodes: the one on the disk and the copies.
An older copy lacks addresses of a newer one (`KeepsSlots`).

`Inode.join` adds the addresses of a copy to the inode that has them all.  What
`find_data_block` does with a copy, it does with that inode, too (`Grows.join`), as
long as no other copy has given a block to the slot that it fills.
-/

namespace MipsOs.Fs

open MipsOs.Lib MipsOs.Lib.BlockProg

/-- The inode with the addresses of a copy. -/
def Inode.join (n m : Inode) : Inode :=
  { n with addrs := fun a => if m.addrs a = 0 then n.addrs a else m.addrs a }

section Join

variable {n m k : Inode} {a : Fin 13}

theorem Inode.join_of_zero (h : m.addrs a = 0) : (n.join m).addrs a = n.addrs a := if_pos h

theorem Inode.join_of_ne (h : m.addrs a ≠ 0) : (n.join m).addrs a = m.addrs a := if_neg h

theorem keepsSlots_join (n m : Inode) : KeepsSlots m (n.join m) := fun _ => Inode.join_of_ne

/-- A copy that is older adds nothing. -/
theorem KeepsSlots.join_eq (h : KeepsSlots m n) : n.join m = n := by
  unfold Inode.join
  congr 1
  funext a
  split
  · rfl
  · rename_i hne
    exact (h a hne).symm

theorem KeepsSlots.join_join (h : KeepsSlots m k) : (n.join m).join k = n.join k := by
  unfold Inode.join
  congr 1
  funext a
  by_cases hk : k.addrs a = 0
  · have hm : m.addrs a = 0 := by
      by_contra hne
      exact hne ((h a hne).symm.trans hk)
    simp only [hk, hm, if_true]
  · simp only [hk, if_false]

end Join

section Copies

variable {sb : SuperBlock} {s t : BlockStore} {n m k : Inode} {p : Part} {b : Nat}

/-- The blocks of a copy are blocks of the newer one. -/
theorem KeepsSlots.addr (h : KeepsSlots n m) (hne : p.addr s n ≠ 0) :
    p.addr s m = p.addr s n := by
  induction p with
  | slot a => exact h a hne
  | entry q l ih =>
    have hq : q.addr s n ≠ 0 := by
      intro hzero
      exact hne (if_pos hzero)
    rw [Part.addr_entry hq, Part.addr_entry (ih hq ▸ hq), ih hq]

/-- A copy is a file when the newer one is. -/
theorem KeepsSlots.fileOk (h : KeepsSlots n m) (hok : FileOk sb s m) : FileOk sb s n where
  range p hp hne := by
    have hrange := hok.range p hp
    rw [h.addr hne] at hrange
    exact hrange hne
  used p hp hne := by
    have hused := hok.used p hp
    rw [h.addr hne] at hused
    exact hused hne
  inj p q hp hq hne heq := by
    have hinj := hok.inj p q hp hq
    rw [h.addr hne, h.addr (heq ▸ hne)] at hinj
    exact hinj hne heq

/-- The block above a part that has got one was there. -/
theorem Adds.parent_ne {q : Part} {l : Nat} (h : Adds sb s n t m p b) (hr : Regions sb)
    (hp : p = .entry q l) : q.addr s n ≠ 0 := by
  have hok := h.ok
  have hb := ne_zero_of_free hr h.free
  have hnew := h.addr_eq p hok
  rw [if_pos rfl] at hnew
  subst hp
  have hne : q.addr t m ≠ 0 := by
    intro hzero
    rw [Part.addr, if_pos hzero] at hnew
    exact hb hnew.symm
  have hself : q ≠ .entry q l := by
    intro heq
    have hdepth := congrArg Part.depth heq
    rw [Part.depth] at hdepth
    omega
  rwa [h.addr_eq q hok.1.ok, if_neg hself] at hne

theorem Adds.keepsSlots (h : Adds sb s n t m p b) : KeepsSlots n m := by
  intro a ha
  have hslot := h.addr_eq (.slot a) trivial
  have hne : Part.slot a ≠ p := by
    rintro rfl
    exact ha h.absent
  rwa [if_neg hne] at hslot

/-- The part that a copy gives a block is missing in the newest one, too. -/
theorem Adds.absent_newer (h : Adds sb s n t m p b) (hr : Regions sb) (hold : KeepsSlots n k)
    (hslot : ∀ a, p = .slot a → k.addrs a = 0) : p.addr s k = 0 := by
  cases p with
  | slot a => exact hslot a rfl
  | entry q l =>
    have hq := h.parent_ne hr rfl
    have habsent := h.absent
    rw [Part.addr_entry hq] at habsent
    rw [Part.addr_entry (hold.addr hq ▸ hq), hold.addr hq, habsent]

/-- What a copy adds, the newest one adds. -/
theorem Adds.join (h : Adds sb s n t m p b) (hr : Regions sb) (hok : FileOk sb s k)
    (hold : KeepsSlots n k) (hslot : ∀ a, p = .slot a → k.addrs a = 0) :
    Adds sb s k t (k.join m) p b := by
  have hb := ne_zero_of_free hr h.free
  have hnew : p.addr t m = b := by
    have heq := h.addr_eq p h.ok
    rwa [if_pos rfl] at heq
  have habsent := h.absent_newer hr hold hslot
  have hdata : ∀ c, sb.dataStart ≤ c → c ≠ b →
      (∀ q : Part, q.IsIndex → q.addr s k ≠ 0 → q.addr s k ≠ c) → t c = s c := by
    intro c hc hcb hother
    apply h.data_eq c hc hcb
    intro q hq hqn
    have hsame := hold.addr hqn
    rw [← hsame] at hqn ⊢
    exact hother q hq hqn
  refine ⟨h.toDataWrite, h.ok, h.free, habsent, ?_, hdata, rfl⟩
  apply addr_after_write hb habsent
  · rw [(keepsSlots_join k m).addr (hnew ▸ hb), hnew]
  · intro hindex l hl
    have hentry := h.addr_eq (.entry p l) ⟨hindex, hl⟩
    rw [Part.addr_entry (hnew ▸ hb), hnew] at hentry
    rw [hentry, if_neg, Part.addr, if_pos h.absent]
    intro heq
    have hdepth := congrArg Part.depth heq
    rw [Part.depth] at hdepth
    omega
  · intro a hne
    have hsame := h.addr_eq (.slot a) trivial
    rw [if_neg hne] at hsame
    change m.addrs a = n.addrs a at hsame
    by_cases hzero : m.addrs a = 0
    · exact Inode.join_of_zero hzero
    · rw [Inode.join_of_ne hzero, hsame, hold a (hsame ▸ hzero)]
  · intro q hq hqne l hl hne
    by_cases hqn : q.addr s n = 0
    · have hrange := hok.range q hq.ok hqne
      rw [h.data_eq _ hrange.1 (hok.addr_ne_free hq.ok hqne h.free)]
      intro q' hq' hqn' heq
      rw [← hold.addr hqn'] at heq
      obtain rfl := hok.inj q' q hq'.ok hq.ok (heq ▸ hqne) heq
      exact hqn' hqn
    · have hqp : q ≠ p := by
        rintro rfl
        exact hqn h.absent
      have hqt := h.addr_eq q hq.ok
      have hentry := h.addr_eq (.entry q l) ⟨hq, hl⟩
      rw [if_neg hqp] at hqt
      rw [if_neg hne, Part.addr_entry (hqt ▸ hqn), Part.addr_entry hqn, hqt] at hentry
      rw [hold.addr hqn, hentry]

theorem Grows.keepsSlots {ps : List Part} (h : Grows sb s n ps t m) : KeepsSlots n m := by
  induction h with
  | nil => exact KeepsSlots.refl n
  | snoc _ hadd ih => exact ih.trans hadd.keepsSlots

/-- What a copy gets, the newest one gets. -/
theorem Grows.join {ps : List Part} (h : Grows sb s n ps t m) (hr : Regions sb)
    (hok : FileOk sb s k) (hold : KeepsSlots n k) (hslot : ∀ a, .slot a ∈ ps → k.addrs a = 0) :
    Grows sb s k ps t (k.join m) := by
  induction h with
  | nil =>
    rw [hold.join_eq]
    exact .nil
  | snoc hgrows hadd ih =>
    have hstep := ih fun a ha => hslot a (List.mem_append_left _ ha)
    have hlast := hadd.join hr (hstep.fileOk hok) (keepsSlots_join k _) fun a ha => by
      subst ha
      have hzero := hadd.absent
      rw [Inode.join_of_zero hzero]
      exact hslot a (List.mem_append_right _ (List.mem_singleton_self _))
    rw [hadd.keepsSlots.join_join] at hlast
    exact hstep.snoc hlast

end Copies

end MipsOs.Fs
