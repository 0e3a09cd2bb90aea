/-
# The heap and the request pages

The network server receives requests on pages REQVA, REQVA + PGSIZE, …, the file
server on the page `fsreq`. Both addresses are inside the arena of `malloc`,
which avoids a page only while something is mapped there.

* `clear_of_run`: heap and request pages stay apart if each `malloc` finds room
  between `mptr` and the request pages.
* `on_request_page`: `mptr` moves up with every chunk, freed or not, and in time
  a chunk lies on a request page.
-/
import Jos.Lib.Arena
import Jos.Net.Serv

namespace Jos
namespace Lib
namespace RequestPages

open Malloc (St Pages Chunk Pte PGSIZE MAXMALLOC mbegin mend roundup4 pagesOf isfree free free_mptr search unmapContinued)
open Function

/-- A server: the page number of its first request page, and how many it has. -/
structure Server where
  base : ℕ
  pages : ℕ

/-- The network server, with `QUEUE_SIZE` pages at `REQVA`. -/
def ns : Server := ⟨Net.Serv.REQVA / PGSIZE, Net.Serv.QUEUE_SIZE⟩

/-- The file server, with the page `fsreq`. -/
def fs : Server := ⟨0x0ffff000 / PGSIZE, 1⟩

/-- A call of the allocator, the reception of a request on page `i`, and the end
of the request. -/
inductive Ev
  | call (e : Malloc.Ev)
  | recv (i : ℕ)
  | done (i : ℕ)

variable (srv : Server)

/-- `sys_ipc_recv` maps the page it gets over what is there; `serve` and the
request threads unmap it. -/
def step : Ev → St → St
  | .call e, s => Malloc.step e s
  | .recv i, s => if i < srv.pages then { s with vpt := update s.vpt (srv.base + i) (some .other) } else s
  | .done i, s => if i < srv.pages then { s with vpt := update s.vpt (srv.base + i) none } else s

/-- No live chunk has a byte on a request page, and no request page is a page of
the allocator, which a reception would replace. -/
structure Clear (s : St) : Prop where
  chunks : ∀ c ∈ s.live, ∀ a, c.v ≤ a → a < c.v + c.size → ∀ i < srv.pages, a / PGSIZE ≠ srv.base + i
  pages : ∀ i < srv.pages, ∀ x, s.vpt (srv.base + i) ≠ some (.heap x)

/-- The chunk fits in the page of `mptr`, or there is room for it in free pages
from `mptr` on that are below the request pages. -/
def Below : Ev → St → Prop
  | .call (.malloc n _), s =>
    ((Malloc.start s).mptr % PGSIZE ≠ 0 ∧
      (Malloc.start s).mptr / PGSIZE = ((Malloc.start s).mptr + roundup4 n + 3) / PGSIZE) ∨
    ∃ p, (Malloc.start s).mptr ≤ p * PGSIZE ∧ p + pagesOf (roundup4 n + 4) ≤ srv.base ∧
      isfree s.vpt (p * PGSIZE) (roundup4 n + 4) = true
  | _, _ => True

/-! ### What the calls do to the page table -/

theorem unmapContinued_le : ∀ {room c c' : ℕ} {vpt vpt' : Pages},
    unmapContinued room c vpt = some (c', vpt') → ∀ q, vpt' q = vpt q ∨ vpt' q = none
  | 0, _, _, _, _, h => by simp [unmapContinued] at h
  | room + 1, c, c', vpt, vpt', h => by
    intro q
    rw [unmapContinued] at h
    split at h
    · rcases unmapContinued_le h q with hq | hq
      · rw [update_apply] at hq
        split at hq
        · exact .inr hq
        · exact .inl hq
      · exact .inr hq
    · cases h
      exact .inl rfl

/-- `free` only unmaps. -/
theorem free_vpt (v : ℕ) (s : St) (q : ℕ) : (free v s).vpt q = s.vpt q ∨ (free v s).vpt q = none := by
  rw [free]
  split
  · exact .inl rfl
  split
  · split
    · exact .inl rfl
    · next c vpt hloop =>
      have hle := unmapContinued_le hloop q
      rw [Malloc.dropRef]
      split
      · exact hle
      · dsimp only
        split
        · rw [update_apply]
          split
          · exact .inr rfl
          · exact hle
        · exact hle
  · exact .inl rfl

theorem leavePage_vpt (s : St) (q : ℕ) :
    (Malloc.leavePage s).vpt q = s.vpt q ∨ (Malloc.leavePage s).vpt q = none := by
  rw [Malloc.leavePage]
  exact free_vpt s.mptr s q

theorem leavePage_live (s : St) : (Malloc.leavePage s).live = s.live := by
  rw [Malloc.leavePage]
  exact (free_mptr s.mptr s).2.2.1

/-- The search takes the first place with room, so none above another that has room. -/
theorem search_first {vpt : Pages} {n p : ℕ} : ∀ {fuel mptr nwrap m : ℕ} {b : Bool},
    mptr % PGSIZE = 0 → mptr ≤ p * PGSIZE → p * PGSIZE < mend → isfree vpt (p * PGSIZE) n = true →
    search vpt n fuel mptr nwrap = some (m, b) → m ≤ p * PGSIZE ∧ b = true
  | 0, _, _, _, _, _, _, _, _, h => by simp [search] at h
  | fuel + 1, mptr, nwrap, m, b, hal, hle, hend, hfree, h => by
    rw [search] at h
    split at h
    · cases h
      exact ⟨hle, rfl⟩
    next hnot =>
    have hne : mptr ≠ p * PGSIZE := by
      rintro rfl
      exact hnot hfree
    simp only [PGSIZE, mend] at *
    rw [if_neg (by omega)] at h
    exact search_first (show (mptr + 4096) % 4096 = 0 by omega) (show mptr + 4096 ≤ p * 4096 by omega) hend hfree h

/-! ### Runs below the request pages -/

/-- The allocator has nothing at or above the request pages. -/
structure Low (s : St) : Prop where
  heap : ∀ q x, s.vpt q = some (.heap x) → q < srv.base
  chunks : ∀ c ∈ s.live, c.last < srv.base
  ptr : s.mptr < srv.base * PGSIZE
  min : s.mptr ≠ 0 → mbegin ≤ s.mptr

variable {srv} {s : St}

theorem Low.clear (h : Low srv s) : Clear srv s := by
  refine ⟨fun c hc a _ hhi i _ ha => ?_, fun i _ x hx => ?_⟩
  · have hlast : (c.v + c.size + 3) / 4096 < srv.base := h.chunks c hc
    replace ha : a / 4096 = srv.base + i := ha
    omega
  · have := h.heap _ x hx
    omega

/-- What only unmaps pages stays below. -/
theorem Low.unmap {t : St} (h : Low srv s) (hvpt : ∀ q, t.vpt q = s.vpt q ∨ t.vpt q = none)
    (hlive : t.live ⊆ s.live) (hptr : t.mptr < srv.base * PGSIZE) (hmin : t.mptr ≠ 0 → mbegin ≤ t.mptr) :
    Low srv t := by
  refine ⟨fun q x hx => ?_, fun c hc => h.chunks c (hlive hc), hptr, hmin⟩
  rcases hvpt q with hq | hq
  · exact h.heap q x (hq ▸ hx)
  · cases hq.symm.trans hx

theorem Low.start (hbase : mbegin < srv.base * PGSIZE) (h : Low srv s) : Low srv (Malloc.start s) := by
  rw [Malloc.start]
  split
  · exact ⟨h.heap, h.chunks, hbase, fun _ => le_rfl⟩
  · exact h

theorem Low.addChunk {n : ℕ} (h : Low srv s) (hmin : mbegin ≤ s.mptr)
    (hfit : s.mptr / PGSIZE = (s.mptr + roundup4 n + 3) / PGSIZE) : Low srv (Malloc.addChunk n s) := by
  have hptr : s.mptr < srv.base * 4096 := h.ptr
  replace hfit : s.mptr / 4096 = (s.mptr + roundup4 n + 3) / 4096 := hfit
  rw [Malloc.addChunk]
  split
  · exact ⟨h.heap, h.chunks, h.ptr, h.min⟩
  · refine ⟨h.heap, fun c hc => ?_, ?_, fun _ => hmin.trans (Nat.le_add_right _ _)⟩
    · rcases List.mem_cons.mp hc with rfl | hc
      · show (s.mptr + roundup4 n + 3) / 4096 < srv.base
        omega
      · exact h.chunks c hc
    · show s.mptr + roundup4 n < srv.base * 4096
      omega

/-- Pages allocated below the request pages. -/
theorem Low.allocate {n avail : ℕ} (h : Low srv s)
    (hroom : s.mptr / PGSIZE + pagesOf (roundup4 n + 4) ≤ srv.base) (hal : s.mptr % PGSIZE = 0)
    (hmin : mbegin ≤ s.mptr) : Low srv (Malloc.allocate n avail s) := by
  have hheap : ∀ i ≤ pagesOf (roundup4 n + 4), ∀ q x,
      Malloc.allocPages (s.mptr / PGSIZE) (roundup4 n + 4) i s.vpt q = some (.heap x) → q < srv.base := by
    intro i hi q x hx
    rw [Malloc.allocPages_apply] at hx
    split at hx
    · omega
    · exact h.heap q x hx
  rw [Malloc.allocate]
  split
  · next havail =>
    refine ⟨fun q x hx => ?_, h.chunks, h.ptr, h.min⟩
    dsimp only at hx
    rw [Malloc.unmapPages_apply] at hx
    split at hx
    · cases hx
    · exact hheap avail (by omega) q x hx
  · simp only [pagesOf, PGSIZE] at hroom hal
    refine ⟨hheap _ le_rfl, fun c hc => ?_, ?_, fun _ => hmin.trans (Nat.le_add_right _ _)⟩
    · rcases List.mem_cons.mp hc with rfl | hc
      · show (s.mptr + roundup4 n + 3) / 4096 < srv.base
        omega
      · exact h.chunks c hc
    · show s.mptr + roundup4 n < srv.base * 4096
      omega

theorem Low.findPages {n avail p : ℕ} (h : Low srv s) (hbase : srv.base ≤ mend / PGSIZE)
    (hal : s.mptr % PGSIZE = 0) (hlo : mbegin ≤ s.mptr) (hle : s.mptr ≤ p * PGSIZE)
    (hroom : p + pagesOf (roundup4 n + 4) ≤ srv.base)
    (hfree : isfree s.vpt (p * PGSIZE) (roundup4 n + 4) = true) : Low srv (Malloc.findPages n avail s) := by
  have hend : p * PGSIZE < mend := by
    simp only [pagesOf, PGSIZE, mend] at *
    omega
  have hin := lt_of_le_of_lt hle hend
  rw [Malloc.findPages, if_neg (Nat.not_le_of_lt hin)]
  split
  · exact ⟨h.heap, h.chunks, h.ptr, h.min⟩
  · next m hsearch => exact absurd (search_first hal hle hend hfree hsearch).2 (by simp)
  · next m hsearch =>
    have hm := (search_first hal hle hend hfree hsearch).1
    obtain ⟨hmal, hmlo, -⟩ := Malloc.search_spec hal hlo hin hsearch
    have hpage : m / PGSIZE ≤ p := Nat.div_le_of_le_mul (by rw [Nat.mul_comm]; exact hm)
    refine Low.allocate ⟨h.heap, h.chunks, ?_, fun _ => hmlo⟩ (show m / PGSIZE + _ ≤ _ by omega) hmal hmlo
    simp only [pagesOf, PGSIZE] at *
    omega

theorem Low.leavePage (h : Low srv s) {p : ℕ} (hmin : mbegin ≤ s.mptr) (hmid : s.mptr % PGSIZE ≠ 0) (hle : s.mptr ≤ p * PGSIZE)
    (hp : p < srv.base) : Low srv (Malloc.leavePage s) ∧ (Malloc.leavePage s).mptr % PGSIZE = 0 ∧
      mbegin ≤ (Malloc.leavePage s).mptr ∧ (Malloc.leavePage s).mptr ≤ p * PGSIZE := by
  replace hmid : s.mptr % 4096 ≠ 0 := hmid
  replace hle : s.mptr ≤ p * 4096 := hle
  have hptr : (Malloc.leavePage s).mptr = (s.mptr + 4096) - (s.mptr + 4096) % 4096 := rfl
  have hup : mbegin ≤ (Malloc.leavePage s).mptr := by
    replace hmin : 0x08000000 ≤ s.mptr := hmin
    rw [hptr, mbegin]
    omega
  refine ⟨h.unmap (leavePage_vpt s) (fun c hc => leavePage_live s ▸ hc) ?_ fun _ => hup, ?_, hup, ?_⟩
  all_goals
    rw [hptr, PGSIZE]
    omega

theorem Low.malloc {n avail : ℕ} (h : Low srv s) (hlow : mbegin < srv.base * PGSIZE)
    (hbase : srv.base ≤ mend / PGSIZE) (hC : Below srv (.call (.malloc n avail)) s) :
    Low srv (Malloc.malloc n avail s) := by
  have hs := h.start hlow
  have hvpt : (Malloc.start s).vpt = s.vpt := by
    rw [Malloc.start]
    split <;> rfl
  have hmin : mbegin ≤ (Malloc.start s).mptr := by
    rw [Malloc.start]
    split
    · exact le_rfl
    · next hne => exact h.min hne
  rw [Malloc.malloc]
  split
  · exact hs
  split
  · next hal =>
    obtain ⟨hmid, -⟩ | ⟨p, hle, hroom, hfree⟩ := hC
    · exact absurd hal hmid
    · exact hs.findPages hbase hal hmin hle hroom (hvpt ▸ hfree)
  next hmid =>
  split
  · next hfit => exact hs.addChunk hmin hfit
  next hfit =>
  obtain ⟨-, hin⟩ | ⟨p, hle, hroom, hfree⟩ := hC
  · exact absurd hin hfit
  have hp : p < srv.base := by
    replace hroom : p + (roundup4 n + 4 + 4096 - 1) / 4096 ≤ srv.base := hroom
    omega
  obtain ⟨hl, hal', hmin', hle'⟩ := hs.leavePage hmin hmid hle hp
  -- leaving the page only unmaps, so the room is still there
  have hfree' : isfree (Malloc.leavePage (Malloc.start s)).vpt (p * PGSIZE) (roundup4 n + 4) = true := by
    rw [Malloc.isfree_iff] at hfree ⊢
    intro k hk
    refine ⟨(hfree k hk).1, ?_⟩
    rcases leavePage_vpt (Malloc.start s) (p + k) with hq | hq
    · exact hq.trans (hvpt ▸ (hfree k hk).2)
    · exact hq
  exact hl.findPages hbase hal' hmin' hle' hroom hfree'

theorem Low.free {k : ℕ} {c : Chunk} (h : Low srv s) :
    Low srv (free c.v { s with live := s.live.eraseIdx k }) := by
  obtain ⟨hptr, -, hlive, -⟩ := free_mptr c.v { s with live := s.live.eraseIdx k }
  refine h.unmap (free_vpt c.v _) (fun b hb => ?_) ?_ ?_
  · rw [hlive] at hb
    exact (List.eraseIdx_sublist _ _).mem hb
  · rw [hptr]
    exact h.ptr
  · rw [hptr]
    exact h.min

theorem Low.step {e : Ev} (h : Low srv s) (hlow : mbegin < srv.base * PGSIZE) (hbase : srv.base ≤ mend / PGSIZE)
    (hC : Below srv e s) : Low srv (step srv e s) := by
  cases e with
  | call e =>
    rw [RequestPages.step, Malloc.step.eq_def]
    split
    · exact h
    cases e with
    | malloc n avail => exact h.malloc hlow hbase hC
    | free k =>
      cases hk : s.live[k]? with
      | none => simpa only [hk] using h
      | some c => simpa only [hk] using h.free
  | recv i =>
    rw [RequestPages.step]
    split
    · refine ⟨fun q x hx => ?_, h.chunks, h.ptr, h.min⟩
      dsimp only at hx
      rw [update_apply] at hx
      split at hx
      · cases hx
      · exact h.heap q x hx
    · exact h
  | done i =>
    rw [RequestPages.step]
    split
    · refine h.unmap (fun q => ?_) (List.Subset.refl _) h.ptr h.min
      dsimp only
      rw [update_apply]
      split
      · exact .inr rfl
      · exact .inl rfl
    · exact h

/-- **Heap and request pages stay apart**, in either server, if each `malloc` has
room between `mptr` and the request pages. -/
theorem clear_of_run {others : ℕ → Bool} {es : List Ev} (hsrv : srv = ns ∨ srv = fs)
    (hC : Throughout (step srv) (Below srv) es (Malloc.init others)) :
    Clear srv (exec (step srv) es (Malloc.init others)) := by
  have hlow : mbegin < srv.base * PGSIZE ∧ srv.base ≤ mend / PGSIZE := by
    rcases hsrv with rfl | rfl <;> decide
  have hinit : Low srv (Malloc.init others) := by
    refine ⟨fun q x hx => ?_, nofun, lt_of_le_of_lt (Nat.zero_le _) hlow.1, fun h0 => absurd rfl h0⟩
    rw [Malloc.init] at hx
    dsimp only at hx
    split at hx <;> cases hx
  exact (exec_invariant_of (fun e s h hC => h.step hlow.1 hlow.2 hC) es hinit hC).clear

/-- A request is received beside two chunks. -/
theorem clear_of_run_request :
    Clear ns (exec (step ns) [.call (.malloc 100 9), .recv 0, .call (.malloc 10000 9), .done 0]
      (Malloc.init fun _ => false)) :=
  clear_of_run (.inl rfl) ⟨.inr ⟨0x8000, by decide +kernel⟩, trivial,
    .inr ⟨0x8001, by decide +kernel⟩, trivial, trivial⟩

/-! ### A chunk on a request page -/

theorem exec_call (srv : Server) : ∀ (es : List Malloc.Ev) (s : St),
    exec (step srv) (es.map .call) s = exec Malloc.step es s
  | [], _ => rfl
  | e :: es, s => exec_call srv es (Malloc.step e s)

theorem chunk_at_base (h : mbegin / PGSIZE ≤ srv.base) (hend : srv.base < mend / PGSIZE) (hpages : 0 < srv.pages) :
    ∃ es, ⟨srv.base * PGSIZE, 4092⟩ ∈ (exec (step srv) es (Malloc.init fun _ => false)).live ∧
      (exec (step srv) es (Malloc.init fun _ => false)).vpt srv.base = some (.heap false) ∧
      ¬ Clear srv (exec (step srv) es (Malloc.init fun _ => false)) := by
  obtain ⟨t, ht⟩ := Nat.exists_eq_add_of_le h
  obtain ⟨ha, hlive⟩ := Malloc.climb_alone t (ht ▸ hend)
  rw [← ht, ← exec_call srv] at ha hlive
  have hpage := (ha.vpt srv.base).trans (if_pos rfl)
  exact ⟨_, by rw [hlive]; exact .head _, hpage, fun hclear => hclear.pages 0 hpages false hpage⟩

/-- In both servers a run that asks for a chunk and frees it, again and again,
comes to a chunk on the first request page, where the next request is received. -/
theorem on_request_page :
    (∃ es, ⟨ns.base * PGSIZE, 4092⟩ ∈ (exec (step ns) es (Malloc.init fun _ => false)).live ∧
      (exec (step ns) es (Malloc.init fun _ => false)).vpt ns.base = some (.heap false) ∧
      ¬ Clear ns (exec (step ns) es (Malloc.init fun _ => false))) ∧
    ∃ es, ⟨fs.base * PGSIZE, 4092⟩ ∈ (exec (step fs) es (Malloc.init fun _ => false)).live ∧
      (exec (step fs) es (Malloc.init fun _ => false)).vpt fs.base = some (.heap false) ∧
      ¬ Clear fs (exec (step fs) es (Malloc.init fun _ => false)) :=
  ⟨chunk_at_base (by decide) (by decide) (by decide), chunk_at_base (by decide) (by decide) (by decide)⟩

end RequestPages
end Lib
end Jos
