import Minix.Fs.Cache
import Minix.Lib.Queues
import Mathlib.Data.Finset.Card

/-!
# The chains of buffers

`Linked` is the invariant of the two structures that each buffer is on: the LRU chain, which is
doubly linked and has all buffers, and the hash chain of its block number. `InUse` says what
`bufs_in_use` counts. The lemmas give what the parts of `get_block` and `put_block` do to them; they
are about the links only, since nothing else of a buffer is read when it is moved.
-/

namespace Minix.Fs

open Lib

/-- Every buffer is on the LRU chain, and on the hash chain of its block number. -/
structure Linked (s : Links) (lru : List Buf) (hash : Fin NR_BUF_HASH → List Buf) : Prop where
  dll : Dll s.b_next s.b_prev s.front s.rear lru
  all : ∀ x, x ∈ lru
  chains : Chains s.b_hash s.buf_hash hash
  mem_hash : ∀ x q, x ∈ hash q ↔ hashOf (s.b_blocknr x) = q

/-- The buffers that are in use. -/
def usedBufs (b_count : Buf → ℕ) : Finset Buf := {x | b_count x ≠ 0}

/-- The number of buffers in use is kept. -/
def InUse (s : Links) : Prop := s.bufs_in_use = (usedBufs s.b_count).card

variable {s t : Links} {lru : List Buf} {hash : Fin NR_BUF_HASH → List Buf} {bp x : Buf}

@[simp]
theorem mem_usedBufs {b_count : Buf → ℕ} : x ∈ usedBufs b_count ↔ b_count x ≠ 0 := by
  simp [usedBufs]

/-- A number that fits is kept as it is. -/
theorem char8_of_lt {n : ℕ} (h : n < 256) : char8 n = n := Nat.mod_eq_of_lt h

/-- One use fewer. -/
theorem char8_pred {n : ℕ} (hpos : 0 < n) (h : n < 256) : char8 (n + 255) = n - 1 := by
  unfold char8
  omega

/-- No hash chain is too long for a walk. -/
theorem Linked.length_lt (h : Linked s lru hash) (q : Fin NR_BUF_HASH) :
    (hash q).length < bufFuel := by
  have := h.chains.length_le (q := q)
  rw [Fintype.card_fin] at this
  exact Nat.lt_succ_of_le this

/-- The LRU chain is not too long for a walk either. -/
theorem Linked.lru_length_lt (h : Linked s lru hash) : lru.length < bufFuel := by
  have := h.dll.forth.length_le
  rw [Fintype.card_fin] at this
  exact Nat.lt_succ_of_le this

/-! ## Counting -/

/-- A buffer that comes into use. -/
theorem usedBufs_update {b_count : Buf → ℕ} {n : ℕ} (hn : n ≠ 0) :
    usedBufs (Function.update b_count bp n) = insert bp (usedBufs b_count) := by
  ext x
  by_cases hx : x = bp
  · subst hx
    simp [hn]
  · simp [hx]

/-- A buffer that goes out of use. -/
theorem usedBufs_update_zero {b_count : Buf → ℕ} :
    usedBufs (Function.update b_count bp 0) = (usedBufs b_count).erase bp := by
  ext x
  by_cases hx : x = bp
  · subst hx
    simp
  · simp [hx]

/-- Below `NR_BUFS`, there is a buffer that is not in use. -/
theorem InUse.exists_free (h : InUse s) (hn : s.bufs_in_use < NR_BUFS) :
    ∃ bp, s.b_count bp = 0 := by
  by_contra hno
  have huniv : usedBufs s.b_count = Finset.univ := by
    ext x
    simpa using fun hx => hno ⟨x, hx⟩
  unfold InUse at h
  rw [huniv, Finset.card_univ, Fintype.card_fin] at h
  omega

/-- One more use of a buffer is counted if the buffer was free. -/
theorem InUse.use (h : InUse s) (hlt : s.b_count bp < 255) : InUse (useBuf s bp) := by
  unfold InUse useBuf at *
  dsimp only
  rw [char8_of_lt (by omega), usedBufs_update (by omega)]
  split_ifs with h₀
  · rw [Finset.card_insert_of_notMem (by simpa using h₀), h]
    push_cast
    rfl
  · rw [Finset.insert_eq_of_mem (by simpa using h₀), h]

/-! ## The LRU chain -/

/-- The oldest block that is not in use is found. -/
theorem takeOldest_spec (h : Linked s lru hash) (hu : InUse s) (hn : s.bufs_in_use < NR_BUFS) :
    ∃ bp, s.b_count bp = 0 ∧
      takeOldest s = some (bp, { s with bufs_in_use := s.bufs_in_use + 1 }) := by
  unfold takeOldest
  rw [if_neg (by omega)]
  rcases scan_cases (fun bp => decide (s.b_count bp = 0)) none h.dll.forth h.lru_length_lt with
    ⟨a, bp, b, -, -, hbp, hs⟩ | ⟨hno, -⟩
  · refine ⟨bp, by simpa using hbp, ?_⟩
    rw [hs]
  · obtain ⟨bp, hbp⟩ := hu.exists_free hn
    have := hno bp (h.all bp)
    simp [hbp] at this

/-- Taking a buffer off the chain, in terms of the two branches for each side. -/
theorem unlinkBuf_eq (s : Links) (bp : Buf) :
    unlinkBuf s bp = { s with
      b_next := setLink s.b_next (s.b_prev bp) (s.b_next bp)
      b_prev := setLink s.b_prev (s.b_next bp) (s.b_prev bp)
      front := setHead s.front (s.b_prev bp) (s.b_next bp)
      rear := setHead s.rear (s.b_next bp) (s.b_prev bp) } := by
  unfold unlinkBuf
  rcases hp : s.b_prev bp with _ | p <;> rcases hn : s.b_next bp with _ | n <;> rfl

/-- Putting a buffer on the front, in the same terms. -/
theorem linkFront_eq (s : Links) (bp : Buf) :
    linkFront s bp = { s with
      b_next := Function.update s.b_next bp s.front
      b_prev := setLink (Function.update s.b_prev bp none) s.front (some bp)
      front := some bp
      rear := setHead s.rear s.front (some bp) } := by
  unfold linkFront
  rcases hf : s.front with _ | f <;> rfl

/-- Putting a buffer on the rear, in the same terms. -/
theorem linkRear_eq (s : Links) (bp : Buf) :
    linkRear s bp = { s with
      b_next := setLink (Function.update s.b_next bp none) s.rear (some bp)
      b_prev := Function.update s.b_prev bp s.rear
      front := setHead s.front s.rear (some bp)
      rear := some bp } := by
  unfold linkRear
  rcases hr : s.rear with _ | r <;> rfl

/-- What relinking a buffer leaves as it is. -/
theorem relinkBuf_frame (s : Links) (bp : Buf) (block_type : ℕ) :
    relinkBuf s bp block_type = { s with
      b_next := (relinkBuf s bp block_type).b_next
      b_prev := (relinkBuf s bp block_type).b_prev
      front := (relinkBuf s bp block_type).front
      rear := (relinkBuf s bp block_type).rear
      bufs_in_use := s.bufs_in_use - 1 } := by
  unfold relinkBuf
  split_ifs
  · rw [unlinkBuf_eq, linkFront_eq]
  · rw [unlinkBuf_eq, linkRear_eq]

/-- A buffer that is moved to an end of the chain is still on it, with all others. -/
theorem Linked.relink (h : Linked s lru hash) (bp : Buf) (block_type : ℕ) :
    ∃ lru', Linked (relinkBuf s bp block_type) lru' hash := by
  obtain ⟨a, b, rfl⟩ := List.append_of_mem (h.all bp)
  have hnd := h.dll.forth.nodup
  have hbp : bp ∉ a ++ b := by
    rw [List.nodup_append, List.nodup_cons] at hnd
    intro hm
    rcases List.mem_append.mp hm with hm | hm
    · exact hnd.2.2 bp hm bp (by simp) rfl
    · exact hnd.2.1.1 hm
  have hrem := h.dll.remove
  have hall : ∀ x, x ≠ bp → x ∈ a ++ b := fun x hx => by
    have := h.all x
    simp only [List.mem_append, List.mem_cons] at this ⊢
    tauto
  have hframe := relinkBuf_frame s bp block_type
  suffices ∃ lru', Dll (relinkBuf s bp block_type).b_next (relinkBuf s bp block_type).b_prev
      (relinkBuf s bp block_type).front (relinkBuf s bp block_type).rear lru' ∧
      ∀ x, x ∈ lru' by
    obtain ⟨lru', hdll, hmem⟩ := this
    refine ⟨lru', hdll, hmem, ?_, ?_⟩
    · rw [hframe]
      exact h.chains
    · rw [hframe]
      exact h.mem_hash
  unfold relinkBuf
  rw [unlinkBuf_eq]
  split_ifs
  · rw [linkFront_eq]
    refine ⟨_, hrem.push_front hbp, fun x => ?_⟩
    by_cases hx : x = bp
    · simp [hx]
    · exact List.mem_cons_of_mem _ (hall x hx)
  · rw [linkRear_eq]
    refine ⟨_, hrem.push_rear hbp, fun x => ?_⟩
    by_cases hx : x = bp
    · simp [hx]
    · exact List.mem_append_left _ (hall x hx)

/-- What `put_block` does to the links. -/
def putLinks (s : Links) (bp : Buf) (block_type : ℕ) : Links :=
  let s := { s with b_count := Function.update s.b_count bp (char8 (s.b_count bp + 255)) }
  if s.b_count bp ≠ 0 then s else relinkBuf s bp block_type

/-- Putting a buffer leaves the block numbers as they are. -/
@[simp]
theorem putLinks_blocknr (s : Links) (bp : Buf) (block_type : ℕ) :
    (putLinks s bp block_type).b_blocknr = s.b_blocknr := by
  unfold putLinks
  dsimp only
  split_ifs
  · rfl
  · rw [relinkBuf_frame]

/-- A buffer that is put is used once less. -/
theorem putLinks_count (hpos : 0 < s.b_count bp) (hlt : s.b_count bp < 256) (block_type : ℕ) :
    (putLinks s bp block_type).b_count = Function.update s.b_count bp (s.b_count bp - 1) := by
  unfold putLinks
  rw [char8_pred hpos hlt]
  dsimp only
  split_ifs
  · rfl
  · rw [relinkBuf_frame]

/-- A buffer that is put is still on its chains. -/
theorem Linked.put (h : Linked s lru hash) (bp : Buf) (block_type : ℕ) :
    ∃ lru', Linked (putLinks s bp block_type) lru' hash := by
  have h' : Linked { s with b_count := Function.update s.b_count bp (char8 (s.b_count bp + 255)) }
      lru hash := ⟨h.dll, h.all, h.chains, h.mem_hash⟩
  unfold putLinks
  dsimp only
  split_ifs
  · exact ⟨lru, h'⟩
  · exact h'.relink bp block_type

/-- A buffer that is put is not counted if it is not used any more. -/
theorem InUse.put (h : InUse s) (hpos : 0 < s.b_count bp) (hlt : s.b_count bp < 256)
    (block_type : ℕ) : InUse (putLinks s bp block_type) := by
  have hmem : bp ∈ usedBufs s.b_count := mem_usedBufs.mpr (by omega)
  unfold putLinks
  rw [char8_pred hpos hlt]
  unfold InUse at *
  dsimp only
  split_ifs with h₀ <;> rw [Function.update_self] at h₀
  · dsimp only
    rw [usedBufs_update h₀, Finset.insert_eq_of_mem hmem, h]
  · rw [not_not] at h₀
    rw [relinkBuf_frame]
    dsimp only
    have := Finset.card_erase_add_one hmem
    rw [h₀, usedBufs_update_zero, h]
    omega

/-! ## The hash chains -/

/-- A buffer is removed from its hash chain. -/
theorem unhashBuf_spec (h : Linked s lru hash) (bp : Buf) :
    ∃ t, unhashBuf s bp = some t ∧ t = { s with b_hash := t.b_hash, buf_hash := t.buf_hash } ∧
      ∃ hash', Chains t.b_hash t.buf_hash hash' ∧
        ∀ x q, x ∈ hash' q ↔ hashOf (s.b_blocknr x) = q ∧ x ≠ bp := by
  have hmem : ∀ x q, x ∈ Function.update hash (hashOf (s.b_blocknr bp))
      ((hash (hashOf (s.b_blocknr bp))).erase bp) q ↔ hashOf (s.b_blocknr x) = q ∧ x ≠ bp := by
    intro x q
    rw [h.chains.mem_update_erase fun q hq hm => hq ((h.mem_hash bp q).mp hm).symm, h.mem_hash]
  unfold unhashBuf
  obtain ⟨a, b, hq⟩ := List.append_of_mem ((h.mem_hash bp _).mpr rfl)
  have hnd := h.chains.nodup (q := hashOf (s.b_blocknr bp))
  have herase : (hash (hashOf (s.b_blocknr bp))).erase bp = a ++ b := by
    rw [hq] at hnd ⊢
    have hbp : bp ∉ a := fun hm => by
      rw [List.nodup_append] at hnd
      exact hnd.2.2 bp hm bp (by simp) rfl
    rw [List.erase_append_right _ hbp, List.erase_cons_head]
  rw [herase] at hmem
  rcases List.eq_nil_or_concat' a with rfl | ⟨c, p, rfl⟩
  · -- The block just taken is on the front of its hash chain.
    have hhead : s.buf_hash (hashOf (s.b_blocknr bp)) = some bp := by
      rw [← h.chains.head?_eq, hq]
      rfl
    rw [if_pos hhead]
    exact ⟨_, rfl, rfl, _, h.chains.pop hq, hmem⟩
  · rw [List.append_assoc, List.singleton_append] at hq
    have hhead : s.buf_hash (hashOf (s.b_blocknr bp)) ≠ some bp := by
      rw [← h.chains.head?_eq, hq]
      rw [hq, List.nodup_append] at hnd
      cases c with
      | nil =>
        have := (List.nodup_cons.mp hnd.2.1).1
        intro e
        obtain rfl : p = bp := by simpa using e
        simp at this
      | cons y c =>
        intro e
        obtain rfl : y = bp := by simpa using e
        exact hnd.2.2 y (by simp) y (by simp) rfl
    have hchain := h.chains.chain (hashOf (s.b_blocknr bp))
    rw [hq] at hchain
    have hlen := h.length_lt (hashOf (s.b_blocknr bp))
    rw [hq, List.length_append] at hlen
    rw [if_neg hhead]
    rcases hy : s.buf_hash (hashOf (s.b_blocknr bp)) with _ | y
    · rw [hy] at hchain
      have := hchain.eq_nil_iff.mpr rfl
      simp at this
    · rw [hy] at hchain
      rw [Option.bind_some, cellBefore_eq hchain (by omega)]
      have hun := h.chains.unlink hq
      rw [List.append_assoc, List.singleton_append] at hmem
      exact ⟨_, rfl, rfl, _, hun, hmem⟩

/-- A buffer that was removed from its hash chain is filled in anew, and put on the chain where it
goes. -/
theorem Linked.rekey (h : Linked s lru hash) (bp : Buf) (block : ℕ) :
    ∃ t, unhashBuf s bp = some t ∧ t = { s with b_hash := t.b_hash, buf_hash := t.buf_hash } ∧
      ∃ hash', Linked (rekeyBuf t bp block) lru hash' := by
  obtain ⟨t, ht, he, hash', hchains, hmem⟩ := unhashBuf_spec h bp
  refine ⟨t, ht, he, _, ?_, h.all, hchains.push_front fun q hm => ((hmem bp q).mp hm).2 rfl, ?_⟩
  · rw [he]
    exact h.dll
  · intro x q
    have hold : t.b_blocknr = s.b_blocknr := by rw [he]
    show x ∈ Function.update hash' _ _ q ↔ hashOf (Function.update t.b_blocknr bp block x) = q
    by_cases hx : x = bp
    · subst hx
      by_cases hq : q = hashOf block
      · simp [hq]
      · rw [Function.update_self, Function.update_of_ne hq]
        exact ⟨fun hm => absurd rfl ((hmem x q).mp hm).2, fun e => absurd e.symm hq⟩
    · rw [Function.update_of_ne hx, hold]
      by_cases hq : q = hashOf block
      · subst hq
        simp [hx, hmem]
      · simp [hx, hq, hmem]

end Minix.Fs
