/-
# The web server: parsing a request, sending a file

`http_request_parse` of user/httpd.c on the buffer that `handle_client` reads
into. The caller writes no terminator after the bytes it received, and the parser
steps over the byte it stopped at whatever it is, so the loops stop inside the
received bytes exactly on a line `GET url version` that has both separators and
no NUL (`parse_within`); otherwise they go on in what an earlier request, or the
stack, left behind.

`send_data` copies a file to the socket until it has copied the size of an
earlier `stat`. It reads whole buffers and does not stop at the end of the file:
it is right exactly when what the reads return adds up to that size, or a call
fails on the way (`body_length`).

Key definitions: `httpRequestParse`, `sendData`.
-/
import Mathlib.Data.List.TakeWhile
import Mathlib.Tactic.Linarith

namespace Jos
namespace User
namespace Httpd

/-- The size of `handle_client`'s buffer, and of `send_data`'s. -/
abbrev BUFFSIZE : ℕ := 512

/-! ### Requests -/

/-- Why a request is not parsed: `-E_BAD_REQ`, or an access to memory that is not there. -/
inductive Err
  | badReq
  | fault
  deriving DecidableEq

/-- What a call reads, the bytes below `reads` of the memory, and `req->url` and `req->version`. -/
structure Outcome where
  reads : ℕ
  result : Except Err (List UInt8 × List UInt8)

/-- `"GET "`. -/
def GET : List UInt8 := [71, 69, 84, 32]

/-- How far the loop of `strncmp` gets in `p` and `q`. -/
def strncmp : List UInt8 → List UInt8 → ℕ
  | b :: p, c :: q => if b ≠ 0 ∧ b = c then strncmp p q + 1 else 0
  | _, _ => 0

/-- The bytes that `while (*request && *request != c) request++` passes. -/
def passed (c : UInt8) (request : List UInt8) : List UInt8 := request.takeWhile fun b => b ≠ 0 && b ≠ c

/-- The part after `GET ` is at `request`. `malloc₁` and `malloc₂` are whether the two allocations
succeed: if not, the null pointer is written to. -/
def parseLine (malloc₁ malloc₂ : Bool) (request : List UInt8) : Outcome :=
  let url := passed 32 request
  if request.length ≤ url.length ∨ malloc₁ = false then ⟨4 + url.length + 1, .error .fault⟩ else
  -- skip space, or the NUL the url ended at
  let request := request.drop (url.length + 1)
  let version := passed 10 request
  let reads := 4 + url.length + 1 + version.length + 1
  if request.length ≤ version.length ∨ malloc₂ = false then ⟨reads, .error .fault⟩ else ⟨reads, .ok (url, version)⟩

/-- `request` is the memory from the buffer on. -/
def httpRequestParse (malloc₁ malloc₂ : Bool) (request : List UInt8) : Outcome :=
  let n := strncmp request GET
  if n < 4 then ⟨n + 1, .error (if n < request.length then .badReq else .fault)⟩
  else parseLine malloc₁ malloc₂ (request.drop 4)

/-- Up to the next `c`, or the end. -/
def upTo (c : UInt8) (bs : List UInt8) : List UInt8 := bs.takeWhile (· ≠ c)

/-- What `l`, the bytes after `GET `, ask for: those up to the next space, and the following ones up
to the newline. -/
def asked (l : List UInt8) : List UInt8 × List UInt8 := (upTo 32 l, upTo 10 (l.drop ((upTo 32 l).length + 1)))

/-- The call stays in the received bytes, and refuses the request or sets what it asks for. -/
def Within (received : List UInt8) (o : Outcome) : Prop :=
  o.reads ≤ received.length ∧ (o.result = .error .badReq ∨ o.result = .ok (asked (received.drop 4)))

/-- One of the received bytes is not that of `"GET "`. -/
def NotGet (received : List UInt8) : Prop := ∃ bc ∈ received.zip GET, bc.1 ≠ bc.2

/-- A url, a space, a version and a newline, without NULs. -/
def Line (l : List UInt8) : Prop :=
  ∃ url version tail, l = url ++ 32 :: (version ++ 10 :: tail) ∧ (∀ b ∈ url, b ≠ 0 ∧ b ≠ 32) ∧
    ∀ b ∈ version, b ≠ 0 ∧ b ≠ 10

variable {received rest : List UInt8}

/-- The loop of `strncmp` ends in the received bytes, before the end of `q`, where one of them differs. -/
theorem strncmp_lt {q : List UInt8} (h0 : 0 ∉ q) (l rest : List UInt8) :
    strncmp (l ++ rest) q < q.length ∧ strncmp (l ++ rest) q < l.length ↔ ∃ bc ∈ l.zip q, bc.1 ≠ bc.2 := by
  induction q generalizing l with
  | nil => simp
  | cons c q ih =>
    cases l with
    | nil => simp
    | cons b l =>
      have hc : c ≠ 0 := fun h => h0 (h ▸ .head _)
      by_cases hbc : b = c
      · simpa [strncmp, hbc, hc] using ih (fun h => h0 (.tail _ h)) l
      · simp [strncmp, hbc]

/-- It ends at the end of `q` in memory that starts with `q`. -/
theorem eq_append_of_strncmp : ∀ {p q : List UInt8}, ¬ strncmp p q < q.length → p = q ++ p.drop q.length
  | _, [], _ => rfl
  | [], c :: q, h => by simp [strncmp] at h
  | b :: p, c :: q, h => by
    by_cases hbc : b ≠ 0 ∧ b = c
    · obtain ⟨hb, rfl⟩ := hbc
      simp only [strncmp, hb, ne_eq, not_false_eq_true, and_self, if_true, List.length_cons] at h
      rw [List.cons_append, List.length_cons, List.drop_succ_cons, ← eq_append_of_strncmp (by omega)]
    · simp [strncmp, hbc] at h

theorem takeWhile_stop {f : UInt8 → Bool} {c : UInt8} {pre tail : List UInt8} (h : ∀ b ∈ pre, f b = true)
    (hc : f c = false) : (pre ++ c :: tail).takeWhile f = pre := by
  rw [List.takeWhile_append_of_pos h]
  simp [hc]

/-- A scan that passes the bytes of `l` before the first `c`, and stops in `l`, stops at a `c`. -/
theorem eq_passed_append {c : UInt8} {l : List UInt8} (h : (passed c (l ++ rest)).length < l.length)
    (hc : passed c (l ++ rest) = upTo c l) :
    (∃ tail, l = passed c (l ++ rest) ++ c :: tail) ∧ ∀ b ∈ passed c (l ++ rest), b ≠ 0 ∧ b ≠ c := by
  refine ⟨?_, fun b hb => by simpa using List.mem_takeWhile_imp hb⟩
  induction l with
  | nil => simp at h
  | cons b l ih =>
    by_cases hb : b ≠ 0 ∧ b ≠ c
    · obtain ⟨tail, htail⟩ := ih (by simpa [passed, hb] using h) (by simpa [passed, upTo, hb] using hc)
      exact ⟨tail, by simpa [passed, hb] using htail⟩
    · by_cases hbc : b = c
      · exact ⟨l, by simp [passed, hbc]⟩
      · obtain rfl : b = 0 := by tauto
        simp [passed, upTo, hbc] at hc

variable {malloc₁ malloc₂ : Bool} {l : List UInt8}

theorem line_of_parse (h : (parseLine malloc₁ malloc₂ (l ++ rest)).reads ≤ l.length + 4)
    (hres : (parseLine malloc₁ malloc₂ (l ++ rest)).result = .ok (asked l)) :
    Line l ∧ malloc₁ = true ∧ malloc₂ = true := by
  unfold parseLine at h hres
  dsimp only at h hres
  split_ifs at h hres with h1 h2
  dsimp only at h
  simp only [Except.ok.injEq, asked, Prod.mk.injEq] at hres
  obtain ⟨⟨tail, hl⟩, hurl⟩ := eq_passed_append (by omega) hres.1
  rw [← hres.1] at hres
  generalize passed 32 (l ++ rest) = url at *
  subst hl
  have hdrop : ∀ r, (url ++ 32 :: tail ++ r).drop (url.length + 1) = tail ++ r := fun r => by simp
  rw [hdrop] at h h2 hres
  rw [← List.append_nil (url ++ _), hdrop, List.append_nil] at hres
  obtain ⟨⟨tail', ht⟩, hver⟩ := eq_passed_append (by simp at h; omega) hres.2
  exact ⟨⟨url, _, tail', by rw [← ht], hurl, hver⟩, by simpa using mt Or.inr h1, by simpa using mt Or.inr h2⟩

theorem parse_of_line (h : Line l) (rest : List UInt8) :
    (parseLine true true (l ++ rest)).reads ≤ l.length + 4 ∧
      (parseLine true true (l ++ rest)).result = .ok (asked l) := by
  obtain ⟨url, version, tail, rfl, hurl, hver⟩ := h
  have hu : ∀ t, passed 32 (url ++ 32 :: t) = url := fun t => takeWhile_stop (by simpa using hurl) rfl
  have hv : ∀ t, passed 10 (version ++ 10 :: t) = version := fun t => takeWhile_stop (by simpa using hver) rfl
  have hu' : ∀ t, upTo 32 (url ++ 32 :: t) = url := fun t => takeWhile_stop (fun b hb => by simp [hurl b hb]) rfl
  have hv' : ∀ t, upTo 10 (version ++ 10 :: t) = version := fun t =>
    takeWhile_stop (fun b hb => by simp [hver b hb]) rfl
  have hdrop : ∀ t : List UInt8, (url ++ 32 :: t).drop (url.length + 1) = t := fun t => by simp
  simp only [parseLine, asked, List.append_assoc, List.cons_append, hu, hv, hu', hv', hdrop]
  simp
  omega

theorem parseLine_reads (malloc₁ malloc₂ : Bool) (l : List UInt8) :
    4 ≤ (parseLine malloc₁ malloc₂ l).reads ∧ (parseLine malloc₁ malloc₂ l).result ≠ .error .badReq := by
  unfold parseLine
  dsimp only
  split_ifs <;> exact ⟨by dsimp only; omega, by simp⟩

/-- A request is parsed inside the bytes received exactly when one of them is not that of `GET `, or
they hold a whole request line. -/
theorem parse_within (malloc₁ malloc₂ : Bool) (received rest : List UInt8) :
    Within received (httpRequestParse malloc₁ malloc₂ (received ++ rest)) ↔
      NotGet received ∨ ∃ l, received = GET ++ l ∧ Line l ∧ malloc₁ = true ∧ malloc₂ = true := by
  have hlt := strncmp_lt (show (0 : UInt8) ∉ GET by decide) received rest
  unfold httpRequestParse Within
  dsimp only
  by_cases hn : strncmp (received ++ rest) GET < 4
  · rw [if_pos hn]
    constructor
    · exact fun h => .inl (hlt.mp ⟨hn, h.1⟩)
    · rintro (h | ⟨l, rfl, -⟩)
      · have hl := (hlt.mpr h).2
        exact ⟨hl, .inl (congrArg _ (if_pos (hl.trans_le (by simp))))⟩
      · simp [GET, strncmp] at hn
  · rw [if_neg hn]
    constructor
    · rintro ⟨hreads, hres⟩
      obtain ⟨h4, hbad⟩ := parseLine_reads malloc₁ malloc₂ ((received ++ rest).drop 4)
      have hlen := h4.trans hreads
      have hget : received = GET ++ received.drop 4 := by
        have h := congrArg (List.take 4) (eq_append_of_strncmp hn)
        rw [List.take_append_of_le_length hlen] at h
        exact (List.take_append_drop 4 received).symm.trans (congrArg (· ++ _) h)
      have hasked := hres.resolve_left hbad
      rw [List.drop_append_of_le_length hlen] at hreads hasked
      exact .inr ⟨_, hget, line_of_parse (by simpa using by omega) hasked⟩
    · rintro (h | ⟨l, rfl, hl, rfl, rfl⟩)
      · exact absurd (hlt.mpr h).1 hn
      · obtain ⟨hr, hres⟩ := parse_of_line hl rest
        exact ⟨by simpa [GET] using hr, .inr hres⟩

/-- `GET /` alone, before the bytes `x 1` and a newline of an earlier request: the url read is `/x`. -/
theorem stale_request : ¬ Within (GET ++ [47]) (httpRequestParse true true (GET ++ [47] ++ [120, 32, 49, 10])) :=
  fun h => absurd h.1 (by decide)

/-! ### Files -/

/-- What a turn of the loop gets from `readn` and `write`. -/
structure Turn where
  readn : ℤ
  write : ℤ

/-- `send_data` returns, or its assertion fails. -/
inductive Ending
  | ret (r : ℤ)
  | assertion

/-- `send_data` from turn `k` on, for at most `fuel` turns, after `count` bytes: how it ends, and how
many bytes it has written to the socket. A file has at most 1034 blocks, so `count` does not wrap. -/
def sendData (turns : ℕ → Turn) (fsize : ℤ) : ℕ → ℕ → ℤ → Option (Ending × ℤ)
  | 0, _, _ => none
  | fuel + 1, k, count =>
    if count < fsize then
      let r := (turns k).readn
      if r < 0 then some (.ret (-1), count)
      else if BUFFSIZE < r then some (.assertion, count)
      else if (turns k).write ≠ r then some (.ret (-1), count + (turns k).write)
      else sendData turns fsize fuel (k + 1) (count + r)
    else some (.ret 0, count)

/-- `send_data` ends, and if it returns 0 the body is as long as announced. -/
def Honest (turns : ℕ → Turn) (fsize : ℤ) : Prop :=
  ∃ fuel e sent, sendData turns fsize fuel 0 0 = some (e, sent) ∧ (e = .ret 0 → sent = fsize)

/-- A turn that goes on. -/
def Turn.Full (t : Turn) : Prop := 0 ≤ t.readn ∧ t.readn ≤ BUFFSIZE ∧ t.write = t.readn

/-- The bytes of the first `n` turns. -/
def total (turns : ℕ → Turn) : ℕ → ℤ
  | 0 => 0
  | n + 1 => total turns n + (turns n).readn

/-- The reads add up to `fsize`, or a call fails before they do. -/
def Lands (turns : ℕ → Turn) (fsize : ℤ) : Prop :=
  ∃ n, (∀ k < n, (turns k).Full) ∧ (total turns n = fsize ∨ total turns n < fsize ∧ ¬ (turns n).Full)

variable {turns : ℕ → Turn} {fsize : ℤ}

theorem sendData_full {n k : ℕ} {count : ℤ} (hc : count < fsize) (h : (turns k).Full) :
    sendData turns fsize (n + 1) k count = sendData turns fsize n (k + 1) (count + (turns k).readn) := by
  obtain ⟨h0, hle, hw⟩ := h
  rw [sendData, if_pos hc]
  simp only [hw, not_lt.mpr h0, not_lt.mpr hle, ne_eq, not_true, if_false]

/-- A call that fails ends it, and not with 0. -/
theorem sendData_fails {n k : ℕ} {count : ℤ} (hc : count < fsize) (h : ¬ (turns k).Full) :
    ∃ e sent, sendData turns fsize (n + 1) k count = some (e, sent) ∧ e ≠ .ret 0 := by
  unfold sendData
  dsimp only
  rw [if_pos hc]
  split_ifs with h1 h2 h3
  · exact ⟨_, _, rfl, by simp⟩
  · exact ⟨_, _, rfl, by simp⟩
  · exact ⟨_, _, rfl, by simp⟩
  · exact absurd ⟨not_lt.mp h1, not_lt.mp h2, not_not.mp h3⟩ h

theorem lands_of_sendData : ∀ {fuel n : ℕ} {e : Ending} {sent : ℤ}, (∀ k < n, (turns k).Full) →
    sendData turns fsize fuel n (total turns n) = some (e, sent) → (e = .ret 0 → sent = fsize) → Lands turns fsize
  | fuel + 1, n, e, sent, hfull, h, h0 => by
    by_cases hc : total turns n < fsize
    · by_cases hn : (turns n).Full
      · rw [sendData_full hc hn] at h
        exact lands_of_sendData (Nat.forall_lt_succ_right.mpr ⟨hfull, hn⟩) h h0
      · exact ⟨n, hfull, .inr ⟨hc, hn⟩⟩
    · simp only [sendData, if_neg hc, Option.some.injEq, Prod.mk.injEq] at h
      exact ⟨n, hfull, .inl (h.2.trans (h0 h.1.symm))⟩

theorem sendData_done {k : ℕ} (h : total turns k = fsize) :
    sendData turns fsize 1 k (total turns k) = some (.ret 0, fsize) := by
  rw [sendData, if_neg (not_lt.mpr h.ge), h]

theorem sendData_of_lands {n : ℕ} (hfull : ∀ k < n, (turns k).Full)
    (hn : total turns n = fsize ∨ total turns n < fsize ∧ ¬ (turns n).Full) : ∀ {d k : ℕ}, k + d = n →
    total turns k ≤ fsize ∧ ∃ fuel e sent, sendData turns fsize fuel k (total turns k) = some (e, sent) ∧
      (e = .ret 0 → sent = fsize)
  | 0, k, rfl => by
    obtain heq | ⟨hlt, hbad⟩ := hn
    · exact ⟨heq.le, 1, .ret 0, _, sendData_done heq, fun _ => rfl⟩
    · obtain ⟨e, sent, hs, he⟩ := sendData_fails (n := 0) hlt hbad
      exact ⟨hlt.le, 1, e, sent, hs, fun h => absurd h he⟩
  | d + 1, k, hk => by
    obtain ⟨hle, fuel, e, sent, hs, he⟩ := sendData_of_lands hfull hn (show k + 1 + d = n by omega)
    have hk : (turns k).Full := hfull k (by omega)
    have hmono : total turns k ≤ total turns (k + 1) := le_add_of_nonneg_right hk.1
    -- the total may be there already, before turns that read nothing
    obtain heq | hlt := (hmono.trans hle).eq_or_lt
    · exact ⟨heq.le, 1, .ret 0, _, sendData_done heq, fun _ => rfl⟩
    · exact ⟨hlt.le, fuel + 1, e, sent, (sendData_full hlt hk).trans hs, he⟩

theorem lands_of_honest (h : Honest turns fsize) : Lands turns fsize := by
  obtain ⟨fuel, e, sent, h, h0⟩ := h
  exact lands_of_sendData (n := 0) (by simp) h h0

/-- The body is sent, and is as long as announced, exactly when the reads add up to the size announced
or a call fails before they do. -/
theorem body_length (turns : ℕ → Turn) (fsize : ℤ) : Honest turns fsize ↔ Lands turns fsize := by
  refine ⟨lands_of_honest, ?_⟩
  rintro ⟨n, hfull, hn⟩
  exact (sendData_of_lands hfull hn (Nat.zero_add n)).2

/-- A file of one byte that is emptied after the `stat`: every read returns 0, and the loop does not
end. A file of 10 bytes that grows to 20: the body has 20. -/
theorem body_differs : ¬ Honest (fun _ => ⟨0, 0⟩) 1 ∧ ¬ Honest (fun _ => ⟨20, 20⟩) 10 := by
  have htotal : ∀ (r : ℤ) n, total (fun _ => ⟨r, r⟩) n = n * r := by
    intro r n
    induction n with
    | zero => simp [total]
    | succ n ih => rw [total, ih, Nat.cast_succ, add_one_mul]
  constructor <;> intro h <;> obtain ⟨n, -, hn⟩ := lands_of_honest h <;> rw [htotal] at hn
  · obtain h | h := hn
    · omega
    · exact h.2 (by simp [Turn.Full])
  · obtain h | h := hn
    · omega
    · exact h.2 (by simp [Turn.Full])

end Httpd
end User
end Jos
