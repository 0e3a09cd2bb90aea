/-
# Writes of a client and the log

`devfile_write` cuts a write to the request buffer; `serve_write` panics for
more than the data area of a handle, which is smaller. Up to there the bytes go
to the file at the seek position, and to the log: as a new handle, or behind
those of the last write to the same file. What may go wrong with the log is in
`Writable`: a transaction that has handles, but none of a write to this file,
drops the bytes, and a write that does not start where the last one ended is
merged all the same.

Key definitions: `devfileWrite`, `Appended`, `Accepted`, `Writable`.
Key theorems: `accepted_iff`.
-/
import Jos.Fs.Answers

namespace Jos
namespace Fs

open Block

/-- `sizeof (fsipcbuf.write.req_buf)`. -/
abbrev REQ_BUFSIZE : ℕ := PGSIZE - (4 + 4)

/-- The request `devfile_write` sends. -/
def devfileWrite (fileid n : ℕ) (buf : ℕ → UInt8) : Req := .write fileid (min n REQ_BUFSIZE) buf

/-- The first `r` bytes of `buf` are at the end of the log of transaction `t`, as
a write to `path` at `off`: in a handle of their own, or behind the bytes of the
handle `g`, which end at `off`. -/
inductive Appended (t : ℕ) (path : ℕ → UInt8) (off : ℤ) (r : ℕ) (buf : ℕ → UInt8) (m m' : Disk) : Prop
  | handle (g : Block) (hs : handlesOf m' t = handlesOf m t ++ [g]) (hop : hOper g = JBD_WRITE)
      (hname : hFilename g = pathStr path) (hoff : hOff g = off) (hsize : hDsize g = r)
      (hdata : ∀ i < r, hData g i = buf i)
  | behind (j : ℕ) (g g' : Block) (hg : (handlesOf m t)[j]? = some g) (hs : handlesOf m' t = (handlesOf m t).set j g')
      (hop : hOper g' = JBD_WRITE) (hname : strEq g' 8 (pathStr path) = true) (hoff : hOff g' = hOff g)
      (hend : off = hOff g + hDsize g) (hsize : hDsize g' = hDsize g + r)
      (hold : ∀ i < hDsize g, hData g' i = hData g i) (hdata : ∀ i < r, hData g' (hDsize g + i) = buf i)

/-- What a write returned and did agree: `r` of the `n` bytes are in the log and
in the file `f`, where the seek position was. -/
structure Agrees (envid id n : ℕ) (buf : ℕ → UInt8) (s : Srv) (r : ℕ) (s' : Srv) : Prop where
  le : r ≤ n
  logged : ∃ t, (s'.envs (envx envid)).trans = some t ∧
    Appended t (s.opentab (id % MAXOPEN)).fpath (s.fds (id % MAXOPEN)).offset r buf s.fs.mem s'.fs.mem
  written : ∃ f off : _, (s.opentab (id % MAXOPEN)).file = some f ∧ (s.fds (id % MAXOPEN)).offset = (off : ℕ) ∧
    Bytes f buf off (off + r) s.fs.mem s'.fs.mem ∧ fSize s'.fs.mem f = max (fSize s.fs.mem f) (off + r)
  advanced : (s'.fds (id % MAXOPEN)).offset = (s.fds (id % MAXOPEN)).offset + r

/-- The request of `devfile_write` is answered, and a positive answer is the
number of bytes that were logged and written. -/
def Accepted (envid id n : ℕ) (buf : ℕ → UInt8) (s : Srv) : Prop :=
  ∃ rep s', serve envid (devfileWrite id n buf) s = .ok rep s' ∧
    ∀ r : ℕ, 0 < r → rep.value = r → Agrees envid id n buf s r s'

/-- The write `h` continues the log of `t`: there is none yet, or the last write
to the same file starts no later, and ends where `h` starts if `h` is merged into it. -/
def Continues (m : Disk) (t : ℕ) (h : Block) : Prop :=
  tNhandles m t = 0 ∨ ∃ j, lastWrite m t h (tNhandles m t) = some j ∧ hOff (m (hblk m t j)) ≤ hOff h ∧
    (Fitting (m (hblk m t j)) h → hOff h = hOff (m (hblk m t j)) + hDsize (m (hblk m t j)))

/-- Env `envid` has the regular file of `id` open for writing, with a seek
position that is not negative; it has a transaction, or can have one, and the
transaction has room for the write and takes it up. -/
structure Writable (envid id n : ℕ) (buf : ℕ → UInt8) (s : Srv) : Prop where
  live : (s.envs (envx envid)).live = true ∧ (s.envs (envx envid)).id = envid
  entry : (s.opentab (id % MAXOPEN)).fileid = id ∧ (s.fds (id % MAXOPEN)).clients ≠ []
  mode : writeMode (s.opentab (id % MAXOPEN)).mode = true
  file : ∃ f, (s.opentab (id % MAXOPEN)).file = some f
  fits : (devfileWrite id n buf).Fits s
  slot : SlotReady s envid
  room : tNhandles s.fs.mem (slotOf s (envx envid)) < MAX_NHANDLES_INTRANS ∧ Free 2 s.fs
  log : Continues s.fs.mem (slotOf s (envx envid))
    (writeHandle (s.opentab (id % MAXOPEN)).fpath (s.fds (id % MAXOPEN)).offset (min n REQ_BUFSIZE) buf)

/-! ### The fields of a write handle -/

section
variable {path buf : ℕ → UInt8} {off : ℤ} {n : ℕ} {g h : Block}

variable (hg : ∀ i, 4 ≤ i → i < 4096 → g i = h i)
include hg

theorem hOper_congr : hOper g = hOper h :=
  le32_congr fun i hi => hg _ (by omega) (by omega)

theorem hFilename_congr : hFilename g = hFilename h :=
  cstr_congr fun i hi => hg _ (by omega) (by simp only [MAXPATHLEN] at hi; omega)

theorem hOff_congr : hOff g = hOff h := by
  unfold hOff
  rw [le32_congr fun i hi => hg _ ?_ ?_] <;> simp only [HANDLE_HDRSIZE, MAXPATHLEN] <;> omega

theorem hDsize_congr : hDsize g = hDsize h := by
  refine le32_congr fun i hi => hg _ ?_ ?_ <;> simp only [HANDLE_HDRSIZE, MAXPATHLEN] <;> omega

omit hg

/-- The fields of the handle `serve_write` builds. -/
theorem writeHandle_fields (path buf : ℕ → UInt8) (h0 : -2 ^ 31 ≤ off) (h1 : off < 2 ^ 31) (hn : n ≤ HANDLE_DATASIZE) :
    hOper (writeHandle path off n buf) = JBD_WRITE ∧ hFilename (writeHandle path off n buf) = pathStr path ∧
      hOff (writeHandle path off n buf) = off ∧ hDsize (writeHandle path off n buf) = n ∧
      ∀ i < n, hData (writeHandle path off n buf) i = buf i := by
  have hn' : n ≤ 3056 := hn
  refine ⟨?_, ?_, ?_, ?_, fun i hi => ?_⟩
  · rw [hOper, writeHandle, le32_write_out (by simp only [HANDLE_HDRSIZE, MAXPATHLEN]; omega),
      le32_put32_out (by simp only [HANDLE_HDRSIZE, MAXPATHLEN]; omega),
      le32_put32_out (by simp only [HANDLE_HDRSIZE, MAXPATHLEN]; omega), mkHandle, le32_write_out (by omega), le32_put32]
    rfl
  · refine cstr_congr fun i hi => ?_
    simp only [MAXPATHLEN] at hi
    rw [writeHandle, write_out (by simp only [HANDLE_HDRSIZE, MAXPATHLEN]; omega),
      put32_out (by simp only [HANDLE_HDRSIZE, MAXPATHLEN]; omega),
      put32_out (by simp only [HANDLE_HDRSIZE, MAXPATHLEN]; omega), mkHandle, write_in (by omega)
      (by simp only [MAXPATHLEN]; omega), Nat.add_sub_cancel_left]
  · rw [hOff, writeHandle, le32_write_out (by omega), le32_put32_out (by omega), le32_put32,
      Nat.mod_eq_of_lt (ofInt32_lt off), toInt32_ofInt32 h0 h1]
  · rw [hDsize, writeHandle, le32_write_out (by omega), le32_put32, Nat.mod_eq_of_lt (by omega)]
  · rw [hData, writeHandle, write_in (by omega) (by omega), Nat.add_sub_cancel_left]

/-- The fields of a write the bytes of `h` were added to, where they start at
its end. -/
theorem mergeInto_fields (hend : hOff h = hOff g + hDsize g) (hfit : Fitting g h) :
    (∀ i < HANDLE_HDRSIZE + 4, mergeInto g h i = g i) ∧ hDsize (mergeInto g h) = hDsize g + hDsize h ∧
      (∀ i < hDsize g, hData (mergeInto g h) i = hData g i) ∧
      ∀ i < hDsize h, hData (mergeInto g h) (hDsize g + i) = hData h i := by
  have hd : (hOff h - hOff g).toNat = hDsize g := by omega
  have hle : hDsize g + hDsize h ≤ 3056 := by
    rw [← hd]
    exact hfit
  unfold mergeInto
  rw [hd]
  refine ⟨fun i hi => ?_, ?_, fun i hi => ?_, fun i hi => ?_⟩
  · rw [put32_out (by omega), write_out (by omega)]
  · rw [hDsize, le32_put32, Nat.mod_eq_of_lt (by omega)]
  · rw [hData, put32_out (by omega), write_out (by omega), hData]
  · rw [hData, put32_out (by omega), write_in (by omega) (by omega)]
    congr 1
    omega

end

/-! ### The log after a write -/

section
variable {path buf : ℕ → UInt8} {off : ℤ} {n t : ℕ} {h : Block} {m m' m₀ m₁ : Disk}

theorem cstr_length_le : ∀ (a : ℕ → UInt8) (n : ℕ), (cstr a n).length ≤ n
  | _, 0 => le_rfl
  | a, n + 1 => by
    rw [cstr]
    split_ifs
    · simp
    · simpa using cstr_length_le _ n

theorem strEq_congr {d d' : Block} : ∀ {name : List UInt8} {o : ℕ}, (∀ i ≤ name.length, d' (o + i) = d (o + i)) →
    strEq d' o name = strEq d o name
  | [], o, hd => by rw [strEq, strEq, show d' o = d o from hd 0 (by simp)]
  | c :: cs, o, hd => by
    rw [strEq, strEq, show d' o = d o from hd 0 (by simp), strEq_congr fun i hi => ?_]
    have := hd (i + 1) (by simpa using hi)
    rwa [show o + (i + 1) = o + 1 + i by omega] at this

theorem Continues.congr (hc : Continues m t h) (he : handlesOf m' t = handlesOf m t) : Continues m' t h := by
  obtain ⟨hn, hr⟩ := reads_of_handlesOf he
  rcases hc with h0 | ⟨j, hj, hle, hend⟩
  · exact .inl (hn.trans h0)
  · refine .inr ⟨j, ?_, ?_⟩
    · rw [hn, lastWrite_congr hr, hj]
    · rw [hr j (lastWrite_some hj).1]
      exact ⟨hle, hend⟩

theorem Continues.ordered (hc : Continues m t h) : ¬ Disordered t h m := by
  rintro ⟨j, hj, hlt⟩
  rcases hc with h0 | ⟨j', hj', hle, -⟩
  · rw [h0, lastWrite] at hj
    cases hj
  · obtain rfl : j = j' := Option.mem_unique hj hj'
    omega

theorem Appended.congr (ha : Appended t path off n buf m m') (h0 : handlesOf m t = handlesOf m₀ t)
    (h1 : handlesOf m₁ t = handlesOf m' t) : Appended t path off n buf m₀ m₁ := by
  cases ha with
  | handle g hs => exact .handle g (by rw [h1, hs, h0]) ‹_› ‹_› ‹_› ‹_› ‹_›
  | behind j g g' hg hs => exact .behind j g g' (by rw [← h0, hg]) (by rw [h1, hs, h0]) ‹_› ‹_› ‹_› ‹_› ‹_› ‹_› ‹_›

/-- An appended write is in a new handle, or in one of its file. -/
theorem Appended.found (ha : Appended t path off n buf m m') : tNhandles m' t = tNhandles m t + 1 ∨
    tNhandles m' t = tNhandles m t ∧ ∃ j < tNhandles m t, strEq (m' (hblk m' t j)) 8 (pathStr path) = true := by
  cases ha with
  | handle g hs => exact .inl (by simpa [handlesOf_eq] using congrArg List.length hs)
  | behind j g g' hg hs hop hname =>
    have hn : tNhandles m' t = tNhandles m t := by simpa [handlesOf_eq] using congrArg List.length hs
    obtain ⟨hj, -⟩ := List.getElem?_eq_some_iff.mp hg
    have hj : j < tNhandles m t := by simpa [handlesOf_eq] using hj
    have hget := getElem?_handlesOf (m := m') (by rwa [hn])
    rw [hs, List.getElem?_set_self (by simpa [handlesOf_eq] using hj)] at hget
    exact .inr ⟨hn, j, hj, by rw [← Option.some.inj hget, hname]⟩

/-- A write that continues the log is at its end after. -/
theorem Logs.appended (hl : Logs t (writeHandle path off n buf) m m')
    (hc : Continues m t (writeHandle path off n buf)) (h0 : -2 ^ 31 ≤ off) (h1 : off < 2 ^ 31)
    (hn : n ≤ HANDLE_DATASIZE) : Appended t path off n buf m m' := by
  obtain ⟨hop, hname, hoff, hsize, hdata⟩ := writeHandle_fields path buf h0 h1 hn
  have hn' : n ≤ 3056 := hn
  cases hl with
  | append g hg hs hno =>
    refine .handle g hs ((hOper_congr hg).trans hop) ((hFilename_congr hg).trans hname) ((hOff_congr hg).trans hoff)
      ((hDsize_congr hg).trans hsize) fun i hi => ?_
    rw [hData, hg _ (by omega) (by simp only [HANDLE_HDRSIZE, MAXPATHLEN]; omega)]
    exact hdata i hi
  | dropped hop hpos hlast =>
    rcases hc with hc | ⟨j, hj, -⟩
    · omega
    · cases hlast.symm.trans hj
  | merged j _ hj hlast hle hfit hs =>
    obtain ⟨-, hop', hstr⟩ := lastWrite_some hlast
    obtain hc | ⟨j', hj', -, hend⟩ := hc
    · omega
    obtain rfl : j = j' := Option.mem_unique hlast hj'
    have hend := hend hfit
    obtain ⟨hhead, hsize', hold, hnew⟩ := mergeInto_fields hend hfit
    rw [hsize] at hsize' hnew
    rw [hoff] at hend
    refine .behind j _ _ (getElem?_handlesOf hj) hs ?_ ?_ ?_ hend hsize' hold fun i hi =>
      (hnew i hi).trans (hdata i hi)
    · rw [← hop']
      exact le32_congr fun i hi => hhead _ (by simp only [HANDLE_HDRSIZE, MAXPATHLEN]; omega)
    · rw [← hname, strEq_congr fun i hi => hhead _ ?_]
      · exact hstr
      · have : (hFilename (writeHandle path off n buf)).length ≤ MAXPATHLEN := cstr_length_le _ _
        simp only [HANDLE_HDRSIZE]
        omega
    · exact congrArg toInt32 (le32_congr fun i hi => hhead _ (by omega))

end

/-! ### The bytes of the file -/

section
variable {L : Layout} {own own' : ℕ → Use} {s s' : FsSt} {f : Ptr} {n : ℤ}

theorem Aside.byteAt (h : Aside s s') (hf : InTree s.mem f) {i : ℕ} (hi : i / 4096 < 1034) :
    byteAt s'.mem f i = byteAt s.mem f i := by
  have hp : Fs.ptr s'.mem f (i / 4096) = Fs.ptr s.mem f (i / 4096) := (h.sameFile hf).ptr _
  unfold Fs.byteAt
  rw [hp]
  split_ifs with h0
  · rfl
  · rw [(h _ (Or.inr ⟨.block f (i / 4096), hf, hi, rfl, h0⟩)).1]

/-- A file that gets longer keeps its bytes. -/
theorem Resized.byteAt (h : Resized own' f n s s') (hi : FInv L own s.mem) (hi' : FInv L own' s'.mem) (hf : IsRec own f)
    (hf' : IsRec own' f) (ht : Fs.fType s.mem f ≠ 1) (hn : Fs.fSize s.mem f ≤ n) {i : ℕ} (hlt : i / 4096 < 1034) :
    Fs.byteAt s'.mem f i = Fs.byteAt s.mem f i := by
  have hptr : Fs.ptr s'.mem f (i / 4096) = Fs.ptr s.mem f (i / 4096) := by
    rw [h.ptr _ hlt]
    split_ifs with hb
    · rfl
    · by_contra hne
      have := (hi.recOk f hf).ptr _ hlt (Ne.symm hne)
      have := blocksUp_mono hn
      omega
  unfold Fs.byteAt
  rw [hptr]
  split_ifs with h0
  · rfl
  · have hu := ((hi'.recOk f hf').ptr _ hlt (by rwa [hptr])).1
    rw [useOf, if_neg (by rwa [h.type]), hptr] at hu
    rw [h.data _ _ _ hu]

end

/-! ### The request is answered -/

section
variable {R : Rules} {C : Op → Prop} {N : ℕ} {s s1 : Srv} {envid id n t : ℕ} {buf : ℕ → UInt8} {f : Ptr} {g : FsSt}

variable (h : Fit R N none s) (hw : Writable envid id n buf s) (hn : n ≤ HANDLE_DATASIZE)
include h hw

theorem Writable.valid : ¬ Refused s id := by
  have hm : (s.fds (id % MAXOPEN)).mapped = true := by
    by_contra hm
    exact hw.entry.2 (h.fds _ (by simpa using hm))
  have hpos := List.length_pos_of_ne_nil hw.entry.2
  rintro (hr | hr)
  · rw [pageref, if_pos hm] at hr
    omega
  · exact hr hw.entry.1

include hn

/-- The write does not stop the server. -/
theorem Writable.safe : (Req.write id n buf).Safe s envid := by
  have hmapped : (s.fds (id % MAXOPEN)).mapped = true := by
    by_contra hm
    exact hw.entry.2 (h.fds _ (by simpa using hm))
  have hlog := hw.log.ordered
  rw [min_eq_left (le_trans hn (by decide))] at hlog
  exact .inr ⟨⟨hw.file, hmapped, fun _ => hw.slot⟩, ⟨.inl hw.mode, hw.room⟩, hn, hlog⟩

/-- What `serve_write` answers and what it did agree. -/
theorem Writable.agrees {g' : FsSt} {s' : Srv} {r : ℕ} (hx : Writes R N envid id n buf s f s1 t g)
    (hrun : fileWrite f buf n (s.fds (id % MAXOPEN)).offset g = .ok r g')
    (hadv : advance (id % MAXOPEN) r { s1 with fs := g' } = .ok () s') : Agrees envid id n buf s r s' := by
  have hmin : min n REQ_BUFSIZE = n := min_eq_left (le_trans hn (by decide))
  obtain ⟨hin, hreg, h0, hlt⟩ : InTree s.fs.mem f ∧ fType s.fs.mem f ≠ FTYPE_DIR ∧
      0 ≤ (s.fds (id % MAXOPEN)).offset ∧ (s.fds (id % MAXOPEN)).offset + n < 2 ^ 31 := by
    have := hw.fits f hx.file
    rwa [hmin] at this
  obtain ⟨off, ho⟩ := Int.eq_ofNat_of_zero_le h0
  obtain rfl : slotOf s (envx envid) = t := Option.some.inj ((hx.looked.trans hw.mode).symm.trans hx.trans)
  have hslot := (hx.looked.fit.trans _ _ hx.trans).1
  have hhs := h.fs.handlesOf_light hslot hx.looked.light
  have hcont := hw.log.congr hhs
  rw [hmin] at hcont
  obtain ⟨L1, own1, jown1, -, -, hi1⟩ := hx.looked.fit.fs
  have hlog := ((addHandle_run _ (hi1.tinv hslot)).of_ok hx.added).2
  have happ := hlog.appended hcont (by omega) (by omega) hn
  obtain rfl : _ = s' := (EStateM.Result.ok.inj hadv).2
  -- what `file_write` did
  obtain ⟨L, own, jown, -, -, hi⟩ := hx.sound
  have hin2 := hx.inTree hin
  have hreg2 : fType g.mem f ≠ 1 := by
    rw [(hx.aside.sameFile hin).1.fType]
    exact hreg
  rw [ho] at hrun
  obtain ⟨rfl, own1, g1, own2, hed, hres, hfill, hbytes⟩ :=
    (fileWrite_run hi.inv hin2 hreg2 buf (by omega)).of_ok hrun
  have hrec := hi.inv.isRec hin2
  have hrec1 := (hed.isRec hrec (hi.inv.not_self hin2)).1
  refine ⟨le_rfl, ⟨_, hx.trans, happ.congr hhs ?_⟩, ⟨f, off, hx.file, ho, fun i hi' => ?_, ?_⟩, ?_⟩
  · exact hi.handlesOf_keeps hslot (hed.keeps.trans hfill.keeps)
  · rw [← hx.aside.byteAt hin hi', ← hres.byteAt hi.inv hed.inv hrec hrec1 hreg2 (le_max_left _ _) hi']
    exact hbytes i hi'
  · show fSize g'.mem f = _
    rw [hfill.fSize hrec1, hres.size, hx.fSize hin]
  · show ((Srv.setFd _ _ _).fds _).offset = _
    unfold Srv.setFd
    dsimp only
    rw [Function.update_self, hx.looked.tabs.2, toInt32_ofInt32 (by omega) (by omega)]

omit hn in
/-- The request of `devfile_write` on a file open for writing. -/
theorem Writable.accepted_iff_le : Accepted envid id n buf s ↔ n ≤ HANDLE_DATASIZE := by
  constructor
  · rintro ⟨rep, s', hser, -⟩
    by_contra hlt
    have hbig : HANDLE_DATASIZE < min n REQ_BUFSIZE := lt_min (not_le.mp hlt) (by decide)
    exact serve_leads (r := devfileWrite id n buf) (P := fun _ => False) (by simp [devfileWrite])
      ((serveWrite_large (hw.valid h) hbig).mono (fun _ _ hx => hx) fun _ _ hx => .inl hx) hser
  · intro hn
    have hmin : min n REQ_BUFSIZE = n := min_eq_left (le_trans hn (by decide))
    have hfits : (Req.write id n buf).Fits s := by
      have := hw.fits
      rwa [devfileWrite, hmin] at this
    have hboth := (write_reach h hw.live id n buf).and
      (serveWrite_done h hw.live hfits (hw.safe h hn))
    unfold Accepted devfileWrite
    rw [hmin]
    refine (serve_run (F := fun _ _ => False) ((handle_page envid (.write id n buf) (by simp) s).and hboth) ?_ ?_ ?_).exists_ok
    · rintro rep s' ⟨hp, ⟨f, s1, t, g, g', hwr, r, hrun, hval, hadv⟩, -⟩ r' - hr'
      obtain rfl : r = r' := by omega
      rw [hp]
      exact hw.agrees h hn hwr hrun hadv
    · rintro er s' - r hr hval
      have : er.code < 0 := by cases er <;> decide
      have hval : er.code = (r : ℤ) := hval
      omega
    · rintro p s' ⟨-, -, er, he⟩
      cases he

end

end Fs
end Jos
