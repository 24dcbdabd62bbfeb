import MipsOs.Lib.Bytes

/-!
# Bytes laid out over blocks

A store gives every block number a page of `n` bytes.  A map from indices to
block numbers lays a sequence of bytes out over the blocks: byte `x` of it is
byte `x % n` of the block of index `x / n`.

`Wrote` says that a range of the sequence has been written and that no other byte
of any block has changed.  Two facts make it usable for a loop: one piece inside
of one block (`wrote_piece`), and two ranges one after the other
(`Wrote.append`), for which no two indices may share a block.
-/

namespace MipsOs.Lib

variable {n : Nat} {map : Nat → Nat} {s t u : Nat → Bytes n}

/-- One byte of the sequence. -/
def byteAt (map : Nat → Nat) (s : Nat → Bytes n) (x : Nat) : UInt8 :=
  (s (map (x / n))).get (x % n)

/-- Position `x` of the sequence is byte `j` of block `b`. -/
def IsPlace (n : Nat) (map : Nat → Nat) (x b j : Nat) : Prop := map (x / n) = b ∧ x % n = j

/-- The bytes from position `off` on have been written, and no others. -/
structure Wrote (map : Nat → Nat) (s t : Nat → Bytes n) (off : Nat) (bytes : List UInt8) :
    Prop where
  inside : ∀ k < bytes.length, byteAt map t (off + k) = bytes.getD k 0
  outside : ∀ b j, (∀ k < bytes.length, ¬ IsPlace n map (off + k) b j) →
    (t b).get j = (s b).get j

/-- The indices below `m` have blocks of their own. -/
def OwnBlock (map : Nat → Nat) (m : Nat) : Prop := Set.InjOn map {i | i < m}

/-- Then two positions have places of their own. -/
theorem place_injective {m x y : Nat} (hmap : OwnBlock map m) (hx : x < m * n)
    (hy : y < m * n) (h : IsPlace n map x (map (y / n)) (y % n)) : x = y := by
  have hdiv : x / n = y / n :=
    hmap (Nat.div_lt_of_lt_mul (Nat.mul_comm m n ▸ hx))
      (Nat.div_lt_of_lt_mul (Nat.mul_comm m n ▸ hy)) h.1
  rw [← Nat.div_add_mod x n, ← Nat.div_add_mod y n, hdiv, h.2]

theorem wrote_nil (map : Nat → Nat) (s : Nat → Bytes n) (off : Nat) : Wrote map s s off [] where
  inside _ h := absurd h (Nat.not_lt_zero _)
  outside _ _ _ := rfl

/-- The bytes of the sequence outside of the range stay. -/
theorem Wrote.byteAt_of_outside {m off x : Nat} {bytes : List UInt8} (hmap : OwnBlock map m)
    (h : Wrote map s t off bytes) (hlt : off + bytes.length ≤ m * n) (hx : x < m * n)
    (hout : x < off ∨ off + bytes.length ≤ x) : byteAt map t x = byteAt map s x := by
  apply h.outside
  intro k hk hplace
  have heq := place_injective hmap (by omega) hx hplace
  omega

/-- Two ranges, one after the other. -/
theorem Wrote.append {m off : Nat} {xs ys : List UInt8} (hmap : OwnBlock map m)
    (h : Wrote map s t off xs) (h' : Wrote map t u (off + xs.length) ys)
    (hlt : off + (xs ++ ys).length ≤ m * n) : Wrote map s u off (xs ++ ys) := by
  rw [List.length_append] at hlt
  constructor
  · intro k hk
    rw [List.length_append] at hk
    by_cases hleft : k < xs.length
    · rw [h'.byteAt_of_outside hmap (by omega) (by omega) (by omega), h.inside k hleft,
        List.getD_append _ _ _ _ hleft]
    · have hinside := h'.inside (k - xs.length) (by omega)
      rw [show off + xs.length + (k - xs.length) = off + k by omega] at hinside
      rw [hinside, List.getD_append_right _ _ _ _ (by omega)]
  · intro b j hout
    rw [h'.outside b j, h.outside b j]
    · intro k hk
      exact hout k (by rw [List.length_append]; omega)
    · intro k hk
      rw [Nat.add_assoc]
      exact hout _ (by rw [List.length_append]; omega)

/-- The next `c` bytes of a list, and the rest of it. -/
theorem Wrote.drop {m off k c : Nat} {bytes : List UInt8} (hmap : OwnBlock map m)
    (hc : k + c ≤ bytes.length) (h : Wrote map s t (off + k) ((bytes.drop k).take c))
    (h' : Wrote map t u (off + (k + c)) (bytes.drop (k + c)))
    (hlt : off + bytes.length ≤ m * n) : Wrote map s u (off + k) (bytes.drop k) := by
  have hlen : ((bytes.drop k).take c).length = c := by
    rw [List.length_take, List.length_drop]
    omega
  have hsplit : (bytes.drop k).take c ++ bytes.drop (k + c) = bytes.drop k := by
    rw [← List.drop_drop, List.take_append_drop]
  rw [← hsplit]
  apply h.append hmap
  · rwa [hlen, Nat.add_assoc]
  · rw [hsplit, List.length_drop]
    omega

/-- A range of the sequence. -/
def bytesAt (map : Nat → Nat) (s : Nat → Bytes n) (off len : Nat) : List UInt8 :=
  (List.range' off len).map (byteAt map s)

theorem bytesAt_append (off a b : Nat) :
    bytesAt map s off a ++ bytesAt map s (off + a) b = bytesAt map s off (a + b) := by
  unfold bytesAt
  rw [← List.map_append, List.range'_append_1]

/-- The positions of a piece inside of one block. -/
theorem piece_div_mod {off len k : Nat} (hfits : off % n + len ≤ n) (hk : k < len) :
    (off + k) / n = off / n ∧ (off + k) % n = off % n + k := by
  have hsplit := Nat.div_add_mod off n
  have hdiv : (off + k) / n = off / n := by
    apply Nat.div_eq_of_lt_le
    · rw [Nat.mul_comm]
      omega
    · rw [Nat.succ_mul, Nat.mul_comm]
      omega
  refine ⟨hdiv, ?_⟩
  have hsplit' := Nat.div_add_mod (off + k) n
  rw [hdiv] at hsplit'
  omega

/-- A range inside of one block. -/
theorem bytesAt_piece {off len : Nat} (hfits : off % n + len ≤ n) :
    bytesAt map s off len = (List.range' (off % n) len).map (s (map (off / n))).get := by
  unfold bytesAt
  rw [List.range'_eq_map_range, List.range'_eq_map_range, List.map_map, List.map_map]
  apply List.map_congr_left
  intro k hk
  obtain ⟨hdiv, hmod⟩ := piece_div_mod hfits (List.mem_range.mp hk)
  show byteAt map s (off + k) = (s (map (off / n))).get (off % n + k)
  rw [byteAt, hdiv, hmod]

/-- One piece inside of one block.  The page may hold anything when the piece fills
it. -/
theorem wrote_piece {off : Nat} {piece : List UInt8} (hfits : off % n + piece.length ≤ n)
    (page : Bytes n) (hpage : page = s (map (off / n)) ∨ piece.length = n) :
    Wrote map s (Function.update s (map (off / n)) (page.paste (off % n) piece)) off piece := by
  have hplace : ∀ k < piece.length, (off + k) / n = off / n ∧ (off + k) % n = off % n + k :=
    fun k hk => piece_div_mod hfits hk
  constructor
  · intro k hk
    obtain ⟨hdiv, hmod⟩ := hplace k hk
    rw [byteAt, hdiv, hmod, Function.update_self, Bytes.get_paste, if_pos (by omega),
      Nat.add_sub_cancel_left]
  · intro b j hout
    by_cases hb : b = map (off / n)
    · subst hb
      rw [Function.update_self, Bytes.get_paste, if_neg]
      · rcases hpage with rfl | hfull
        · rfl
        · by_cases hj : j < n
          · obtain ⟨hdiv, hmod⟩ := hplace (j - off % n) (by omega)
            exact absurd ⟨by rw [hdiv], by omega⟩ (hout (j - off % n) (by omega))
          · rw [Bytes.get, Bytes.get, dif_neg hj, dif_neg hj]
      · rintro ⟨_, hle, hlt⟩
        obtain ⟨hdiv, hmod⟩ := hplace (j - off % n) (by omega)
        exact hout (j - off % n) (by omega) ⟨by rw [hdiv], by omega⟩
    · rw [Function.update_of_ne hb]

end MipsOs.Lib
