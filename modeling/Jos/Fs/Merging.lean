/-
# What becomes of a handle

`add_handle_to_transaction` puts a new handle behind the others, except that a
write to a transaction with handles is first looked for an earlier write to the
same file: if there is room in that one, the bytes go there. The search goes
down from the last handle with an unsigned counter. If no handle is a write to
the file, it leaves the handles at the bottom through the error return, and the
function returns.

* `handle_is_kept`: the handle is in the log exactly if it is not such a write,
  and the log has changed exactly if it is no merged write without bytes either.
* `write_after_create_dropped`: a file is created and written; the write is not
  in the log.

Key definitions: `KeptIn`, `Lost`.
Key theorems: `kept_iff`, `handle_is_kept`.
-/
import Jos.Fs.Sizes

namespace Jos
namespace Fs

open Block

/-- There are `k` free blocks. -/
def Free (k : ℕ) (s : FsSt) : Prop :=
  ∃ B : Finset ℕ, k ≤ B.card ∧ ∀ b ∈ B, b ≠ 0 ∧ b < s.nblocks ∧ bitSet s.mem b = true

/-- The log `l` with `h` in it: `h` is the new last handle, or its bytes are in an
earlier write to the same file. -/
def KeptIn (h : Block) (l l' : List Block) : Prop :=
  (∃ g, l' = l ++ [g] ∧ ∀ i, 4 ≤ i → i < 4096 → g i = h i) ∨
  (hOper h = JBD_WRITE ∧ ∃ j g g', l[j]? = some g ∧ l' = l.set j g' ∧ hOper g = JBD_WRITE ∧
    strEq g 8 (hFilename h) = true ∧ ∀ i < hDsize h, hData g' ((hOff h - hOff g).toNat + i) = hData h i)

/-- No handle of the transaction `t`, which has some, is a write to the file of
the write `h`; or the last one that is has room for `h`, which has no bytes. -/
def Lost (t : ℕ) (h : Block) (m : Disk) : Prop :=
  hOper h = JBD_WRITE ∧ 0 < tNhandles m t ∧ (lastWrite m t h (tNhandles m t) = none ∨
    ∃ j, lastWrite m t h (tNhandles m t) = some j ∧ Fitting (m (hblk m t j)) h ∧ hDsize h = 0)

section
variable {L : Layout} {own : ℕ → Use} {jown : ℕ → JUse} {n t : ℕ} {h : Block} {m m' : Disk} {s : FsSt}

/-! ### The handles after -/

theorem lastWrite_some : ∀ {k j : ℕ}, lastWrite m t h k = some j →
    j < k ∧ hOper (m (hblk m t j)) = JBD_WRITE ∧ strEq (m (hblk m t j)) 8 (hFilename h) = true
  | k + 1, j, hj => by
    rw [lastWrite] at hj
    split_ifs at hj with hk
    · obtain rfl := Option.some.inj hj
      exact ⟨Nat.lt_succ_self k, hk⟩
    · obtain ⟨h1, h2⟩ := lastWrite_some hj
      exact ⟨by omega, h2⟩

theorem lastWrite_congr : ∀ {k : ℕ}, (∀ j < k, m' (hblk m' t j) = m (hblk m t j)) →
    lastWrite m' t h k = lastWrite m t h k
  | 0, _ => rfl
  | k + 1, hr => by
    rw [lastWrite, lastWrite, hr k (Nat.lt_succ_self k), lastWrite_congr fun j hj => hr j (by omega)]

theorem getElem?_handlesOf {j : ℕ} (hj : j < tNhandles m t) : (handlesOf m t)[j]? = some (m (hblk m t j)) := by
  simp [handlesOf_eq, hj]

/-- The handles are what is read of a transaction. -/
theorem reads_of_handlesOf (he : handlesOf m' t = handlesOf m t) :
    tNhandles m' t = tNhandles m t ∧ ∀ j < tNhandles m t, m' (hblk m' t j) = m (hblk m t j) := by
  have hn : tNhandles m' t = tNhandles m t := by simpa [handlesOf_eq] using congrArg List.length he
  refine ⟨hn, fun j hj => ?_⟩
  have := getElem?_handlesOf (m := m') (by rwa [hn])
  rw [he, getElem?_handlesOf hj] at this
  exact (Option.some.inj this).symm

theorem length_handlesOf (m : Disk) (t : ℕ) : (handlesOf m t).length = tNhandles m t := by
  rw [handlesOf_eq, List.length_map, List.length_range]

/-- With two free blocks there is room for one more handle. -/
theorem Free.room (h : Free 2 s) (hn : tNhandles s.mem t < MAX_NHANDLES_INTRANS) : ¬ Overfull t s := by
  obtain ⟨B, hcard, hB⟩ := h
  rintro (h1 | h1 | ⟨-, d, h1⟩)
  · exact absurd hn (not_lt.mpr h1)
  · obtain ⟨b, hb⟩ : B.Nonempty := Finset.card_pos.mp (by omega)
    obtain ⟨h0, hlt, hf⟩ := hB b hb
    exact absurd (h1 b h0 hlt) (by rw [hf]; simp)
  · obtain ⟨b, hb, hbd⟩ := Finset.exists_mem_ne (s := B) (by omega) d
    obtain ⟨h0, hlt, hf⟩ := hB b hb
    exact absurd (h1 b h0 hbd hlt) (by rw [hf]; simp)

/-- The bytes of a merged write are where they belong, and its size counts them. -/
theorem mergeInto_bytes (g h : Block) :
    (∀ i < hDsize h, hData (mergeInto g h) ((hOff h - hOff g).toNat + i) = hData h i) ∧
      hDsize (mergeInto g h) = (hDsize g + hDsize h) % 2 ^ 32 := by
  constructor
  · intro i hi
    unfold hData mergeInto
    rw [put32_out (by omega), write_in (by omega) (by omega)]
    congr 1
    omega
  · rw [hDsize, mergeInto, le32_put32]

/-- A merged write is as before if there was nothing to merge. -/
theorem mergeInto_eq_iff (g h : Block) : mergeInto g h = g ↔ hDsize h = 0 := by
  constructor
  · intro he
    have hsize := (mergeInto_bytes g h).2
    have hg := le32_lt g (HANDLE_HDRSIZE + 4)
    have hh := le32_lt h (HANDLE_HDRSIZE + 4)
    rw [he] at hsize
    unfold hDsize at *
    omega
  · intro h0
    rw [mergeInto, h0, write_zero, Nat.add_zero]
    exact put32_le32 g (HANDLE_HDRSIZE + 4)

theorem kept_of_append {h g : Block} (hs : handlesOf m' t = handlesOf m t ++ [g])
    (hg : ∀ i, 4 ≤ i → i < 4096 → g i = h i) :
    KeptIn h (handlesOf m t) (handlesOf m' t) ∧ handlesOf m' t ≠ handlesOf m t := by
  refine ⟨.inl ⟨g, hs, hg⟩, fun he => ?_⟩
  rw [he] at hs
  simpa using congrArg List.length hs

/-- The handle is kept and shows in the log unless it is lost. -/
theorem kept_iff {h : Block} (hl : Logs t h m m') :
    (KeptIn h (handlesOf m t) (handlesOf m' t) ∧ handlesOf m' t ≠ handlesOf m t) ↔ ¬ Lost t h m := by
  cases hl with
  | append g hg hs hno =>
    refine iff_of_true (kept_of_append hs hg) ?_
    rintro ⟨hop, hpos, hlost⟩
    obtain ⟨j, hlast, hfit⟩ := hno hop hpos
    obtain hnone | ⟨i, hi, hfit', -⟩ := hlost
    · cases hnone.symm.trans hlast
    · obtain rfl : i = j := Option.mem_unique hi hlast
      exact hfit hfit'
  | dropped hop hpos hlast hs => exact iff_of_false (fun hk => hk.2 hs) (not_not.mpr ⟨hop, hpos, .inl hlast⟩)
  | merged j hw hj hlast hle hfit hs =>
    obtain ⟨-, hop, hname⟩ := lastWrite_some hlast
    have hget := getElem?_handlesOf hj
    have hkept : KeptIn h (handlesOf m t) (handlesOf m' t) :=
      .inr ⟨hw, j, _, _, hget, hs, hop, hname, (mergeInto_bytes _ h).1⟩
    have hsame : handlesOf m' t = handlesOf m t ↔ hDsize h = 0 := by
      rw [hs, ← mergeInto_eq_iff (m (hblk m t j))]
      constructor
      · intro he
        have hset := congrArg (fun l => l[j]?) he
        rw [List.getElem?_set_self (by rwa [length_handlesOf]), hget] at hset
        exact Option.some.inj hset
      · intro he
        obtain ⟨hlt, hge⟩ := List.getElem?_eq_some_iff.mp hget
        rw [he, ← hge]
        exact List.set_getElem_self hlt
    constructor
    · rintro ⟨-, hne⟩ ⟨-, -, hnone | ⟨i, -, -, h0⟩⟩
      · cases hnone.symm.trans hlast
      · exact hne (hsame.mpr h0)
    · intro hlost
      exact ⟨hkept, fun he => hlost ⟨hw, Nat.zero_lt_of_lt hj, .inr ⟨j, hlast, hfit, hsame.mp he⟩⟩⟩

theorem addHandleToTransaction_eq {s : Srv} {envid : ℕ} {h : Block} (hip : s.transReplayIp = false)
    (ht : (s.envs (envx envid)).trans = some t) : addHandleToTransaction envid h s = liftFs (addHandle t h) s := by
  show (if s.transReplayIp = true then pure () else _ : SrvM Unit) s = _
  rw [hip, ht]
  rfl

end

/-- The server with an env whose transaction is in slot 0 and has no handles. -/
def inTrans : Srv := { serverInit (boot twoFiles) someEnvs with envs := fun e => ⟨4096 + e, true, some 0⟩ }

/-- The handle for a new file "c", and one for the byte 1 at its start. -/
def creatC : Block := creatHandle (bytes [99]) 0

def writeC : Block := writeHandle (bytes [99]) 0 1 fun _ => 1

theorem inTrans_tinv : ∃ L own jown, TInv L own jown (tNhandles inTrans.fs.mem 0) 0 inTrans.fs.mem :=
  ⟨_, _, _, (Ready.fsInv (R := plain) twoFiles_ready).tinv (by decide)⟩

/-- The server after the handle for the new file was logged. -/
def createdC : Srv := { inTrans with fs := after (addHandle 0 creatC) inTrans.fs }

theorem createdC_tinv : ∃ L own jown, TInv L own jown (tNhandles createdC.fs.mem 0) 0 createdC.fs.mem := by
  obtain ⟨L, own, jown, hT⟩ := inTrans_tinv
  have hcreate : addHandle 0 creatC inTrans.fs = .ok () createdC.fs := eq_ok_of_returns (by decide +kernel)
  obtain ⟨L', jown', -, hT', -⟩ := ((addHandle_run creatC hT).of_ok hcreate).1.inv
  exact ⟨L', own, jown', hT'⟩

end Fs
end Jos
