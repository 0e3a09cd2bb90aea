/-
# Directories without holes

`file_get_block` allocates a block that is not there, so looking up a path in a
directory that was extended by `file_set_size` takes blocks from the disk. In a
tree whose directories have all their blocks (`Solid`) a lookup only reads.

Key definitions: `Solid`.
Key theorems: `fileGetBlock_there`, `walkPath_solid`, `fileOpen_solid`.
-/
import Jos.Fs.NoPanic

namespace Jos
namespace Fs

open Block

/-- Every directory has all of its blocks. -/
def Solid (m : Disk) : Prop :=
  ∀ f, InTree m f → fType m f = FTYPE_DIR → ∀ k < 1034, k < blocksUp (fSize m f) → ptr m f k ≠ 0

/-- `x` only reads: it returns or reports an error, and the blocks stay. -/
def Reads {α : Type} (x : FsM α) (s : FsSt) (Q : α → Prop) : Prop :=
  Run x s (fun v s' => Loaded s s' ∧ Q v) (fun e s' => Loaded s s' ∧ ∃ er, e = .err er)

section
variable {L : Layout} {own : ℕ → Use} {s s' : FsSt} {a f : Ptr} {α β : Type} {k : ℕ} {Q : α → Prop} {P : β → Prop}

namespace Reads

theorem pure {v : α} (h : Q v) : Reads (Pure.pure v) s Q := Run.pure ⟨Loaded.refl s, h⟩

theorem fail (e : Err) : Reads (Fs.fail e : FsM α) s Q := .throw ⟨Loaded.refl s, e, rfl⟩

theorem get {g : FsSt → FsM β} (h : Reads (g s) s P) : Reads (MonadState.get >>= g) s P := .getBind h

theorem bind {x : FsM α} {g : α → FsM β} (hx : Reads x s Q) (hg : ∀ v s', Loaded s s' → Q v → Reads (g v) s' P) :
    Reads (x >>= g) s P := by
  refine Run.bind hx ?_
  rintro v s' ⟨hl, hQ⟩
  exact (hg v s' hl hQ).mono (fun _ _ h => ⟨hl.trans h.1, h.2⟩) fun _ _ h => ⟨hl.trans h.1, h.2⟩

theorem of_ok {x : FsM α} (h : Run x s (fun v s' => Loaded s s' ∧ Q v) (fun _ _ => False)) : Reads x s Q :=
  h.mono (fun _ _ h => h) nofun

theorem attempt {x : FsM α} (h : Reads x s Q) : Reads (Fs.attempt x) s fun r => ∀ v, r = .ok v → Q v := by
  refine (attempt_run h).mono ?_ ?_
  · rintro r s' (⟨v, rfl, hl, hQ⟩ | ⟨e, rfl, hl, -⟩)
    · exact ⟨hl, fun w hw => Except.ok.inj hw ▸ hQ⟩
    · exact ⟨hl, fun w hw => nomatch hw⟩
  · rintro _ s' ⟨⟨p, rfl⟩, -, er, he⟩
    cases he

end Reads

/-- `file_get_block` of a block that is there. -/
theorem fileGetBlock_there (h : FInv L own s.mem) (ha : IsRec own a) (hlive : Live s.mem a)
    (hsz : k < blocksUp (fSize s.mem a)) (hp : k < 1034 → ptr s.mem a k ≠ 0) :
    Reads (fileGetBlock a k) s fun b => k < 1034 ∧ b = ptr s.mem a k := by
  by_cases hk : k < 1034
  · refine (fileGetBlock_exact h ha hlive hk hsz).mono ?_ ?_
    · rintro b s' ⟨own', hgot, rfl⟩
      have hl := hgot.loaded (hp hk)
      exact ⟨hl, hk, by rw [hl.mem]⟩
    · rintro e s' ⟨-, -, hlt, -⟩
      rw [need, if_pos (hp hk)] at hlt
      omega
  · unfold fileGetBlock
    rw [if_pos (show NDIRECT + NINDIRECT ≤ k from not_lt.mp hk)]
    exact .fail _

theorem dirScan_solid {p : Block → ℕ → Bool} : ∀ (n i : ℕ) {s : FsSt}, FInv L own s.mem → IsRec own a → Live s.mem a →
    i + n ≤ blocksUp (fSize s.mem a) → (∀ k < 1034, k < i + n → ptr s.mem a k ≠ 0) → Reads (dirScan a p n i) s fun _ => True
  | 0, _, _, _, _, _, _, _ => .pure trivial
  | n + 1, i, s, h, ha, hlive, hsz, hp => by
    refine (fileGetBlock_there h ha hlive (by omega) fun hi => hp i hi (by omega)).bind ?_
    rintro _ s1 hl1 ⟨hi, rfl⟩
    have htouch : Run (touch _) s1 (fun _ s' => Loaded s1 s' ∧ True) (fun _ _ => False) :=
      (touch_ok (hl1.here.mpr (h.here_ptr ha hi (hp i hi (by omega))))).post (fun _ _ h => ⟨h, trivial⟩)
    refine (Reads.of_ok htouch).bind ?_
    rintro _ s2 hl2 -
    have hm : s2.mem = s.mem := (hl1.trans hl2).mem
    refine .get ?_
    split
    · exact .pure trivial
    · refine dirScan_solid n (i + 1) (by rwa [hm]) ha (by rwa [hm]) (by rw [hm]; omega) fun k hk hlt => ?_
      rw [hm]
      exact hp k hk (by omega)

theorem dirLookup_solid (h : FInv L own s.mem) (hD : L.D) (hS : Solid s.mem) (hf : InTree s.mem f)
    (ht : fType s.mem f = 1) (name : List UInt8) : Reads (dirLookup f name) s fun _ => True := by
  refine .bind (Q := fun n => n = blocksUp (fSize s.mem f)) ?_ ?_
  · refine .of_ok ((dirBlocks_run h (h.isRec hf) ht).mono ?_ fun _ _ he => he.2.2 hD)
    rintro n _ ⟨rfl, rfl, -⟩
    exact ⟨Loaded.refl _, rfl⟩
  rintro _ s1 hl rfl
  refine (dirScan_solid _ 0 (by rwa [hl.mem]) (h.isRec hf) (by rw [hl.mem]; exact h.live hf) (by rw [hl.mem]; omega)
    fun k hk hlt => ?_).bind fun r s2 _ _ => ?_
  · rw [hl.mem]
    exact hS f hf ht k hk (by omega)
  · cases r with
    | some g => exact .pure trivial
    | none => exact .fail _

theorem walkLoop_solid (hD : L.D) : ∀ (n : ℕ) (dir : Option Ptr) (f : Ptr) (path : List UInt8) {s : FsSt},
    FInv L own s.mem → Solid s.mem → InTree s.mem f → CleanPath path → Reads (walkLoop n dir f path) s fun _ => True
  | 0, _, _, _, _, _, _, _, _ => .pure trivial
  | n + 1, dir, f, path, s, h, hS, hf, hp => by
    rw [walkLoop_succ]
    by_cases h1 : path = []
    · rw [if_pos h1]
      exact .pure trivial
    rw [if_neg h1]
    by_cases h2 : 128 ≤ (firstElem path).length
    · rw [if_pos h2]
      exact .fail _
    rw [if_neg h2]
    refine .get ?_
    by_cases h3 : fType s.mem f ≠ 1
    · rw [if_pos h3]
      exact .fail _
    rw [if_neg h3]
    have ht : fType s.mem f = 1 := not_not.mp h3
    obtain ⟨hn0, hnn⟩ := hp.elem h1
    -- what the lookup finds is in the tree
    have hfound : Reads (dirLookup f (firstElem path)) s fun g => InTree s.mem g := by
      refine ((dirLookup_solid h hD hS hf ht _).and
        (dirLookup_run h (h.isRec hf) (h.live hf) ht (not_le.mp h2) hn0 hnn)).mono ?_ fun _ _ h => h.1
      rintro g s' ⟨⟨hl, -⟩, own', hg, k, hfind⟩
      exact ⟨hl, hfind.inTree hf ht⟩
    refine hfound.attempt.bind fun r s1 hl hr => ?_
    cases r with
    | ok g =>
      exact walkLoop_solid hD n (some f) g _ (by rwa [hl.mem]) (by rwa [hl.mem]) (by rw [hl.mem]; exact hr g rfl) hp.rest
    | error e =>
      cases e with
      | notFound =>
        dsimp only
        split_ifs
        · exact .pure trivial
        · exact .fail _
      | _ => exact .fail _

theorem walkPath_solid (h : FInv L own s.mem) (hD : L.D) (hS : Solid s.mem) {path : List UInt8} (hp : 0 ∉ path) :
    Reads (walkPath path) s fun _ => True :=
  walkLoop_solid hD _ _ _ _ h hS (inTree_root _) (cleanPath_skipSlash hp)

theorem fileOpen_solid (h : FInv L own s.mem) (hD : L.D) (hS : Solid s.mem) {path : List UInt8} (hp : 0 ∉ path) :
    Reads (fileOpen path) s fun _ => True := by
  refine (walkPath_solid h hD hS hp).bind fun w s1 _ _ => ?_
  cases w with
  | found dir f => exact .pure trivial
  | missing dir last => exact .fail _

end

end Fs
end Jos
