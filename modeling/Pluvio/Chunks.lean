import Pluvio.Checked

/-!
# Exact chunks

An iterator over the exact chunks of a slice hands out slices of one size from the front, and
keeps what is left over at the end aside from the start. It is a `Pluvio.ChunksExact`: the
chunks that are still to come, and the remainder.

`Pluvio.forZip` is a loop over two of them at once, which is also where they stand afterwards.
The two go on together: on slices of one length, round `c` has chunk `c` of both
(`Pluvio.forZip_eq_ok`), and what the loop leaves over is the ends of the two slices. The loop
over the places of a slice is `Pluvio.Checked.foldlM_range_eq_ok`.
-/

namespace Pluvio

universe u

variable {R β : Type u}

namespace Slice

/-- Element `i` of a slice, as a cell. -/
def cell (s : Slice R) (i : ℕ) : R × ℕ := (s.region, s.off + i)

/-- So many elements of a slice, from element `i` on. -/
def part (s : Slice R) (i len : ℕ) : Slice R := ⟨s.region, s.off + i, len⟩

@[simp] theorem part_len (s : Slice R) (i len : ℕ) : (s.part i len).len = len := rfl

@[simp] theorem cell_part (s : Slice R) (i len j : ℕ) : (s.part i len).cell j = s.cell (i + j) :=
  congrArg (Prod.mk s.region) (Nat.add_assoc s.off i j)

theorem part_part (s : Slice R) (i len j len' : ℕ) :
    (s.part i len).part j len' = s.part (i + j) len' := by
  rw [part, part, part, Nat.add_assoc]

end Slice

/-- An iterator over the exact chunks of a slice. -/
structure ChunksExact (R : Type*) where
  /-- The chunks that are still to come. -/
  rest : Slice R
  remainder : Slice R
  size : ℕ
  size_pos : 0 < size

/-- The exact chunks of a slice. -/
def Slice.chunksExact (s : Slice R) (size : ℕ) (h : 0 < size) : ChunksExact R :=
  let rem := s.len % size
  let fst := s.len - rem
  { rest := s.part 0 fst, remainder := s.part fst rem, size := size, size_pos := h }

/-- The next chunk, if there is a whole one. -/
def ChunksExact.next (it : ChunksExact R) : Option (Slice R × ChunksExact R) :=
  if it.rest.len < it.size then none
  else some (it.rest.part 0 it.size,
    { it with rest := it.rest.part it.size (it.rest.len - it.size) })

/-- A chunk is taken off what is still to come. -/
theorem ChunksExact.len_of_next {it it₁ : ChunksExact R} {d : Slice R}
    (h : it.next = some (d, it₁)) : it₁.rest.len < it.rest.len := by
  have hpos := it.size_pos
  rw [next] at h
  split at h
  · cases h
  next hlen =>
    cases h
    rw [Slice.part_len]
    omega

/-- A loop over the chunks of two iterators at once, and the iterators afterwards. The first
one is asked first. -/
def forZip (f : β → Slice R → Slice R → Checked β) (b : β) (it it' : ChunksExact R) :
    Checked (β × ChunksExact R × ChunksExact R) :=
  match h : it.next with
  | none => .ok (b, it, it')
  | some (d, it₁) =>
    match it'.next with
    | none => .ok (b, it₁, it')
    | some (s, it₁') =>
      have := it.len_of_next h
      f b d s >>= fun b₁ => forZip f b₁ it₁ it₁'
termination_by it.rest.len

/-! ### How far an iterator is -/

namespace ChunksExact

/-- The iterator over the chunks of `s` of which `c` are taken. -/
def after (s : Slice R) (size : ℕ) (h : 0 < size) (c : ℕ) : ChunksExact R where
  rest := s.part (c * size) ((s.len / size - c) * size)
  remainder := s.part (s.len / size * size) (s.len % size)
  size := size
  size_pos := h

variable {s : Slice R} {size : ℕ} {h : 0 < size}

theorem chunksExact_eq_after : s.chunksExact size h = after s size h 0 := by
  have hfst : s.len - s.len % size = s.len / size * size := by
    rw [Nat.div_mul_self_eq_mod_sub_self]
  rw [Slice.chunksExact, after, Nat.zero_mul, Nat.sub_zero]
  simp only [hfst]

/-- After `c` chunks the iterator hands out the next one, if there is a whole one left. -/
theorem next_after {c : ℕ} (hc : c < s.len / size) :
    (after s size h c).next = some (s.part (c * size) size, after s size h (c + 1)) := by
  have hlen : (s.len / size - c) * size = (s.len / size - (c + 1)) * size + size := by
    rw [← Nat.succ_mul]
    exact congrArg (· * size) (by omega)
  have hle : ¬(s.len / size - c) * size < size := by omega
  have hrest : (s.part (c * size) ((s.len / size - c) * size)).part size
      ((s.len / size - c) * size - size) =
        s.part ((c + 1) * size) ((s.len / size - (c + 1)) * size) := by
    rw [Slice.part_part, hlen, Nat.add_sub_cancel, Nat.succ_mul]
  refine (if_neg hle).trans ?_
  rw [after, after]
  dsimp only
  rw [Slice.part_len, hrest, Slice.part_part, Nat.add_zero]

/-- When all chunks are taken, there is none. -/
theorem next_after_all : (after s size h (s.len / size)).next = none := by
  refine if_pos ?_
  rw [after, Slice.part_len, Nat.sub_self, Nat.zero_mul]
  exact h

end ChunksExact

/-! ### Loops -/

section

variable {f : β → Slice R → Slice R → Checked β} {b : β} {it it' : ChunksExact R}

theorem forZip_none (h : it.next = none) : forZip f b it it' = .ok (b, it, it') := by
  rw [forZip]
  split
  · rfl
  next heq => cases h.symm.trans heq

theorem forZip_some {it₁ it₁' : ChunksExact R} {d s : Slice R} (h : it.next = some (d, it₁))
    (h' : it'.next = some (s, it₁')) :
    forZip f b it it' = f b d s >>= fun b₁ => forZip f b₁ it₁ it₁' := by
  rw [forZip]
  split
  next heq => cases h.symm.trans heq
  next heq =>
    cases h.symm.trans heq
    rw [h']

end

/-- **A loop over the chunks of two slices of one length**: if round `c`, on chunk `c` of
both, leads from `g c` to `g (c + 1)`, the loop leads through all chunks. -/
theorem forZip_eq_ok {f : β → Slice R → Slice R → Checked β} (g : ℕ → β) {s t : Slice R}
    (hlen : s.len = t.len) {size : ℕ} (h : 0 < size)
    (hstep : ∀ c < s.len / size,
      f (g c) (s.part (c * size) size) (t.part (c * size) size) = .ok (g (c + 1))) :
    forZip f (g 0) (s.chunksExact size h) (t.chunksExact size h) =
      .ok (g (s.len / size), .after s size h (s.len / size), .after t size h (s.len / size)) := by
  rw [ChunksExact.chunksExact_eq_after, ChunksExact.chunksExact_eq_after]
  -- From any round on: the induction is on the rounds that are left.
  have key : ∀ k c, c + k = s.len / size →
      forZip f (g c) (.after s size h c) (.after t size h c) = .ok
        (g (s.len / size), .after s size h (s.len / size), .after t size h (s.len / size)) := by
    intro k
    induction k with
    | zero =>
      rintro c rfl
      rw [forZip_none ChunksExact.next_after_all]
    | succ k ih =>
      intro c hc
      have hlt : c < s.len / size := by omega
      rw [forZip_some (ChunksExact.next_after hlt) (ChunksExact.next_after (hlen ▸ hlt)),
        hstep c hlt, Checked.ok_bind, ih (c + 1) (by omega)]
  exact key _ 0 (Nat.zero_add _)

namespace Checked

/-- **A loop** whose round `i` leads from `g i` to `g (i + 1)`. -/
theorem foldlM_range_eq_ok {f : β → ℕ → Checked β} (g : ℕ → β) {n : ℕ}
    (h : ∀ i < n, f (g i) i = .ok (g (i + 1))) : (List.range n).foldlM f (g 0) = .ok (g n) := by
  induction n with
  | zero => rfl
  | succ n ih =>
    rw [List.range_succ, List.foldlM_append, ih fun i hi => h i (by omega), ok_bind,
      List.foldlM_cons, h n (Nat.lt_succ_self n)]
    rfl

end Checked

end Pluvio
