/-
# Request buffers of the network server

The server's main loop takes a buffer (`get_buffer`), receives the next message
into it and, if that is a request, leaves the buffer to a thread of its own,
which gives it back when the request is served. Threads are cooperative: they
run while the main loop yields, and the system calls of any of them stop all.
A run is any interleaving of messages and of threads that finish, so in
particular of those that can happen at the yields.

* `accounted_of_run`: a buffer is marked in use exactly while the main loop or
  a thread holds it, as long as every message but the timer's has a page and
  the threads can be created.
* `leaked`: the main loop drops a message without a page and keeps its buffer;
  after `QUEUE_SIZE` of them the server panics with no request at all.
-/
import Mathlib.Data.Int.Notation
import Mathlib.Tactic.Ring
import Jos.Base.Marks
import Jos.Base.Steps

namespace Jos

namespace Net
namespace Serv

abbrev PGSIZE : ℕ := 4096
abbrev QUEUE_SIZE : ℕ := 20
abbrev REQVA : ℕ := 0x0ffff000 - QUEUE_SIZE * PGSIZE
abbrev TIMER_INTERVAL : ℕ := 250
abbrev PTE_P : ℕ := 0x1
abbrev E_INVAL : ℤ := 3

abbrev NSREQ_ACCEPT : ℤ := 1
abbrev NSREQ_SOCKET : ℤ := 9
abbrev NSREQ_INPUT : ℤ := 10
abbrev NSREQ_TIMER : ℤ := 12

/-- `struct st_args`, the state of a request thread. -/
structure StArgs where
  reqno : ℤ
  whom : ℕ
  req : ℕ

/-- Where the main loop is. -/
inductive Main
  | head
  | recv (va : ℕ)
  | timer (va whom : ℕ)
  | bufferOverflow
  | noThreadArgs (va : ℕ)

/-- The buffer marks, the main loop, the threads that are not finished, and the replies sent. -/
structure Sys where
  buse : ℕ → Bool
  timerEnvid : ℕ
  main : Main
  threads : List StArgs
  replies : List (ℕ × ℤ)

def init (timerEnvid : ℕ) : Sys := ⟨fun _ => false, timerEnvid, .head, [], []⟩

/-- The loop of `get_buffer`. -/
def firstUnused (buse : ℕ → Bool) : Option ℕ := (List.range QUEUE_SIZE).find? fun i => !buse i

/-- `get_buffer`. -/
def getBuffer (s : Sys) : Sys :=
  match firstUnused s.buse with
  | none => { s with main := .bufferOverflow }
  | some i => { s with buse := Function.update s.buse i true, main := .recv (REQVA + i * PGSIZE) }

/-- The buffer at an address. -/
def slotOf (va : ℕ) : ℕ := (va - REQVA) / PGSIZE

/-- `put_buffer`. -/
def putBuffer (va : ℕ) (s : Sys) : Sys := { s with buse := Function.update s.buse (slotOf va) false }

/-- What memory there is for a new thread: for all it needs, not for its arguments, or not for its
context or stack. -/
inductive Memory
  | enough
  | noArgs
  | noThread
  deriving DecidableEq

/-- The main loop from the return of `ipc_recv` to the next yield or the next `get_buffer`. -/
def receive (reqno : ℤ) (whom perm : ℕ) (memory : Memory) (va : ℕ) (s : Sys) : Sys :=
  if reqno = NSREQ_TIMER then
    -- process_timer returns at once for a wrong env, and yields for the timer
    if whom ≠ s.timerEnvid then { putBuffer va s with main := .head }
    else { s with main := .timer va whom }
  else if perm &&& PTE_P = 0 then { s with main := .head }
  else
    match memory with
    | .noArgs => { s with main := .noThreadArgs va }
    -- the result of thread_create is not looked at
    | .noThread => { s with main := .head }
    | .enough => { s with main := .head, threads := ⟨reqno, whom, va⟩ :: s.threads }

/-- The end of `process_timer`, after `elapsed` milliseconds, and of the iteration. -/
def timerDone (elapsed va whom : ℕ) (s : Sys) : Sys :=
  { putBuffer va s with
    main := .head
    replies := s.replies ++ [(whom, Int.ofNat ((TIMER_INTERVAL + 2 ^ 32 - elapsed % 2 ^ 32) % 2 ^ 32))] }

/-- The result of a request, `lwip` that of the socket call. -/
def result (reqno lwip : ℤ) : ℤ :=
  if NSREQ_ACCEPT ≤ reqno ∧ reqno ≤ NSREQ_SOCKET then lwip
  else if reqno = NSREQ_INPUT then 0
  else -E_INVAL

/-- The end of `serve_thread`. -/
def serveThread (t : StArgs) (lwip : ℤ) (s : Sys) : Sys :=
  putBuffer t.req
    { s with replies := if t.reqno ≠ NSREQ_INPUT then s.replies ++ [(t.whom, result t.reqno lwip)] else s.replies }

/-- What can happen next: the main loop takes a buffer, a message arrives, the timer is answered, the
`k`th thread comes to its end. -/
inductive Ev
  | getBuffer
  | receive (reqno : ℤ) (whom perm : ℕ) (memory : Memory)
  | timerDone (elapsed : ℕ)
  | finish (k : ℕ) (lwip : ℤ)

/-- The server after a panic does nothing. -/
def Main.panicked : Main → Bool
  | .bufferOverflow | .noThreadArgs _ => true
  | _ => false

def step : Ev → Sys → Sys
  | .getBuffer, s => match s.main with
    | .head => getBuffer s
    | _ => s
  | .receive reqno whom perm memory, s => match s.main with
    | .recv va => receive reqno whom perm memory va s
    | _ => s
  | .timerDone elapsed, s => match s.main with
    | .timer va whom => timerDone elapsed va whom s
    | _ => s
  | .finish k lwip, s =>
    if s.main.panicked then s
    else match s.threads[k]? with
      | some t => serveThread t lwip { s with threads := s.threads.eraseIdx k }
      | none => s

/-! ### Who holds which buffer -/

/-- The buffer the main loop has taken for the message in hand. -/
def Main.held : Main → List ℕ
  | .recv va | .timer va _ | .noThreadArgs va => [va]
  | .head | .bufferOverflow => []

/-- The addresses of all buffers that are held. -/
def Sys.held (s : Sys) : List ℕ := s.main.held ++ s.threads.map StArgs.req

/-- The marks say who holds what, and the server has run out of buffers only when `QUEUE_SIZE`
requests were waiting. -/
structure Accounted (s : Sys) : Prop where
  /-- A buffer is marked exactly while it is received into, or owned by a thread. -/
  marked : ∀ i < QUEUE_SIZE, s.buse i = true ↔ REQVA + i * PGSIZE ∈ s.held
  /-- No two of them have the same buffer. -/
  nodup : s.held.Nodup
  /-- Each is one of the `QUEUE_SIZE` buffers. -/
  buffer : ∀ va ∈ s.held, ∃ i < QUEUE_SIZE, va = REQVA + i * PGSIZE
  overflow : s.main = .bufferOverflow → QUEUE_SIZE ≤ s.threads.length

/-- The invariant, in slot numbers. -/
structure Inv (s : Sys) : Prop where
  marks : Marks s.buse (s.held.map slotOf)
  buffer : ∀ va ∈ s.held, ∃ i < QUEUE_SIZE, va = REQVA + i * PGSIZE
  overflow : s.main = .bufferOverflow → QUEUE_SIZE ≤ s.threads.length

variable {s : Sys} {va : ℕ}

@[simp] theorem slotOf_buffer (i : ℕ) : slotOf (REQVA + i * PGSIZE) = i := by
  simp [slotOf]

theorem Inv.accounted (h : Inv s) : Accounted s where
  buffer := h.buffer
  overflow := h.overflow
  nodup := h.marks.nodup.of_map _
  marked i _ := by
    rw [h.marks.iff i, List.mem_map]
    constructor
    · rintro ⟨va, hva, rfl⟩
      obtain ⟨j, _, rfl⟩ := h.buffer va hva
      rwa [slotOf_buffer]
    · intro hm
      exact ⟨_, hm, slotOf_buffer i⟩

theorem firstUnused_some {buse : ℕ → Bool} {i : ℕ} (h : firstUnused buse = some i) :
    i < QUEUE_SIZE ∧ buse i = false :=
  ⟨List.mem_range.mp (List.mem_of_find?_eq_some h), by simpa using List.find?_some h⟩

theorem firstUnused_none {buse : ℕ → Bool} (h : firstUnused buse = none) : ∀ i < QUEUE_SIZE, buse i = true := by
  simpa [firstUnused, List.find?_eq_none] using h

theorem Inv.getBuffer (h : Inv s) (hm : s.main = .head) : Inv (getBuffer s) := by
  have hheld : s.held = s.threads.map StArgs.req := by simp [Sys.held, hm, Main.held]
  unfold Serv.getBuffer
  split
  · next hn =>
    refine ⟨?_, ?_, fun _ => ?_⟩
    · simpa [Sys.held, hm, Main.held] using h.marks
    · simpa [Sys.held, hm, Main.held] using h.buffer
    · simpa [hheld] using h.marks.length_ge (firstUnused_none hn)
  · next i hi =>
    obtain ⟨hlt, hfree⟩ := firstUnused_some hi
    refine ⟨?_, ?_, nofun⟩
    · have hm' := h.marks
      rw [hheld] at hm'
      simpa [Sys.held, Main.held] using hm'.take hfree
    · intro va hva
      rcases List.mem_cons.mp (show va ∈ (REQVA + i * PGSIZE) :: s.threads.map StArgs.req from hva) with rfl | hva
      · exact ⟨i, hlt, rfl⟩
      · exact h.buffer va (hheld ▸ hva)

/-- A buffer given back by the main loop. -/
theorem Inv.put (h : Inv s) (hm : s.main.held = [va]) (replies : List (ℕ × ℤ)) :
    Inv { putBuffer va s with main := .head, replies := replies } := by
  have hheld : s.held = va :: s.threads.map StArgs.req := by simp [Sys.held, hm]
  refine ⟨?_, fun va' hva => h.buffer va' ?_, nofun⟩
  · have := h.marks
    rw [hheld] at this
    exact this.put
  · rw [hheld]
    exact List.mem_cons_of_mem _ hva

/-- The messages after which the buffer is given back or has an owner. -/
def Answered : Ev → Sys → Prop
  | .receive reqno _ perm memory, _ => reqno = NSREQ_TIMER ∨ perm &&& PTE_P ≠ 0 ∧ memory ≠ .noThread
  | _, _ => True

instance (e : Ev) (s : Sys) : Decidable (Answered e s) :=
  match e with
  | .receive .. => inferInstanceAs (Decidable (_ ∨ _ ∧ _))
  | .getBuffer | .timerDone _ | .finish .. => .isTrue trivial

theorem Inv.receive (h : Inv s) (hm : s.main = .recv va) {reqno : ℤ} {whom perm : ℕ} {memory : Memory}
    (hC : Answered (.receive reqno whom perm memory) s) : Inv (receive reqno whom perm memory va s) := by
  have hheld : s.held = va :: s.threads.map StArgs.req := by simp [Sys.held, hm, Main.held]
  have hsame : ∀ {m : Main} {ts : List StArgs}, m ≠ .bufferOverflow → m.held ++ ts.map StArgs.req = s.held →
      Inv { s with main := m, threads := ts } := by
    intro m ts hover heq
    refine ⟨?_, ?_, fun he => absurd he hover⟩
    · show Marks s.buse (List.map slotOf (m.held ++ ts.map StArgs.req))
      rw [heq]
      exact h.marks
    · show ∀ va ∈ m.held ++ ts.map StArgs.req, _
      rw [heq]
      exact h.buffer
  unfold Serv.receive
  split
  · split
    · exact h.put (by rw [hm]; rfl) s.replies
    · exact hsame nofun hheld.symm
  · next hreq =>
    obtain ⟨hp, hmem⟩ := hC.resolve_left hreq
    rw [if_neg hp]
    cases memory with
    | enough => exact hsame nofun hheld.symm
    | noArgs => exact hsame nofun hheld.symm
    | noThread => exact absurd rfl hmem

theorem Inv.finish (h : Inv s) (hp : s.main.panicked = false) {k : ℕ} {t : StArgs} (ht : s.threads[k]? = some t)
    (lwip : ℤ) : Inv (serveThread t lwip { s with threads := s.threads.eraseIdx k }) := by
  obtain ⟨hk, hget⟩ := List.getElem?_eq_some_iff.mp ht
  -- the thread's buffer comes to the front of what is held
  have hperm : s.held.Perm (t.req :: (s.main.held ++ (s.threads.eraseIdx k).map StArgs.req)) := by
    have h1 : s.threads.Perm (t :: s.threads.eraseIdx k) := by
      rw [← hget]
      exact (List.getElem_cons_eraseIdx_perm hk).symm
    exact ((h1.map StArgs.req).append_left s.main.held).trans List.perm_middle
  refine ⟨?_, fun va hva => h.buffer va ?_, fun he => ?_⟩
  · exact (h.marks.perm (hperm.map slotOf)).put
  · exact hperm.mem_iff.mpr (.tail _ hva)
  · have hm : s.main = .bufferOverflow := he
    rw [hm] at hp
    cases hp

theorem Inv.step (h : Inv s) (e : Ev) (hC : Answered e s) : Inv (step e s) := by
  cases e with
  | getBuffer =>
    simp only [Serv.step]
    split
    · next hm => exact h.getBuffer hm
    · exact h
  | receive reqno whom perm memory =>
    simp only [Serv.step]
    split
    · next hm => exact h.receive hm hC
    · exact h
  | timerDone elapsed =>
    simp only [Serv.step]
    split
    · next hm => exact h.put (by rw [hm]; rfl) _
    · exact h
  | finish k lwip =>
    simp only [Serv.step]
    split
    · exact h
    · next hp =>
      split
      · next ht => exact h.finish (by simpa using hp) ht lwip
      · exact h

theorem Inv.init (timerEnvid : ℕ) : Inv (init timerEnvid) :=
  ⟨⟨List.nodup_nil, by simp [Serv.init, Sys.held, Main.held]⟩, nofun, nofun⟩

/-- **Buffers are accounted for** in every run in which each message but the timer's has a page, and
there is memory for the threads. -/
theorem accounted_of_run (timerEnvid : ℕ) (es : List Ev)
    (h : Throughout step Answered es (init timerEnvid)) : Accounted (exec step es (init timerEnvid)) :=
  (exec_invariant_of (fun e _ hs hC => hs.step e hC) es (Inv.init timerEnvid) h).accounted

/-- A request that is served, then a timer message from a wrong env. -/
theorem accounted_of_run_request :
    let es : List Ev := [.getBuffer, .receive 9 4097 7 .enough, .finish 0 3, .getBuffer, .receive NSREQ_TIMER 4097 0 .enough]
    Throughout step Answered es (init 4098) ∧ Accounted (exec step es (init 4098)) :=
  have h : Throughout step Answered
      [.getBuffer, .receive 9 4097 7 .enough, .finish 0 3, .getBuffer, .receive NSREQ_TIMER 4097 0 .enough]
      (init 4098) := by decide
  ⟨h, accounted_of_run 4098 _ h⟩

/-- `QUEUE_SIZE` requests without a page, and the next `get_buffer`. -/
def pageless : List Ev :=
  (List.replicate QUEUE_SIZE [.getBuffer, .receive 9 4097 0 .enough]).flatten ++ [.getBuffer]

/-- The server has panicked for want of buffers, and no request was ever outstanding. -/
theorem leaked :
    (exec step pageless (init 4098)).main = .bufferOverflow ∧ (exec step pageless (init 4098)).threads = [] :=
  ⟨rfl, rfl⟩

end Serv
end Net
end Jos
