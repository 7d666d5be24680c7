import SocietyHelper.Library.Failures
import SocietyHelper.Media.Downloads
import SocietyHelper.Sync.ManifestProtocol
import SocietyHelper.Sync.Resumable
import SocietyHelper.Sync.Rows

/-! # The replica takes the chunks of a download

A chunk that the worker passes on has the size and the position that the selected
entry allows, so the replica never finds it malformed. A chunk that the replica has
taken stands in the staged file of its transfer, at the position of the chunk.
-/

namespace SocietyHelper.Media

open Library Library.Effect Sync Sync.Replica

/-! ## Bytes that are staged -/

/-- A file that has these bytes at this offset. -/
def Holds (d : Disk) (path : Path) (offset : Nat) (bytes : Bytes) : Prop :=
  ∃ stored, d.content path = some stored ∧ offset ≤ stored.length ∧ bytes <+: stored.drop offset

theorem attempt_disk {error : Text} {s t : Volume} (h : ConfinedFiles.attempt error s = .ok () t) : t.disk = s.disk := by
  rcases attempt_cases error s with ⟨faults, hok⟩ | ⟨faults, herror⟩
  · rw [hok] at h
    cases h
    rfl
  · rw [herror] at h
    cases h

theorem pwrite_holds {path : Path} {i : Nat} {bytes : Bytes} {s t : Volume} (hnode : s.disk.node path = some (.file i))
    (h : ConfinedFiles.pwrite i bytes s = .ok () t) : Holds t.disk path (s.disk.inode i).bytes.length bytes := by
  rcases ConfinedFiles.pwrite_cases i bytes s with ⟨u, hok, hwrote⟩ | ⟨-, n, e, u, herror, -⟩
  · rw [hok] at h
    cases h
    refine ⟨(s.disk.inode i).bytes ++ bytes, (hwrote.content path).trans (if_pos hnode), ?_, ?_⟩
    · rw [List.length_append]
      omega
    · rw [List.drop_left]
  · rw [herror] at h
    cases h

/-- What has been appended stands at its offset, also where it stood there before. -/
theorem append_holds {path : Path} {offset : Nat} {bytes : Bytes} {s t : Volume}
    (h : ConfinedFiles.append path offset bytes s = .ok () t) : Holds t.disk path offset bytes := by
  rw [ConfinedFiles.append, bind_eq_ok] at h
  obtain ⟨_, u, -, h⟩ := h
  rw [bind_of_ok (get_apply u)] at h
  cases hnode : u.disk.node path with
  | none =>
    rw [hnode] at h
    cases h
  | some n =>
    rw [hnode] at h
    cases n with
    | directory i => cases h
    | special => cases h
    | file i =>
      have hcontent : u.disk.content path = some (u.disk.inode i).bytes := by
        rw [Disk.content, hnode]
        rfl
      dsimp only at h
      split at h
      · cases h
      · rename_i hlong
        split at h
        · split at h
          · cases h
          · split at h
            · cases h
            · rename_i hsame
              cases h
              exact ⟨_, hcontent, Nat.not_lt.mp hlong, List.prefix_iff_eq_take.mpr (not_not.mp hsame).symm⟩
        · rename_i hshort
          obtain ⟨_, v, hwrite, hflush⟩ := bind_eq_ok.mp h
          rw [attempt_disk hflush, Nat.le_antisymm (Nat.not_lt.mp hlong) (Nat.not_lt.mp hshort)]
          exact pwrite_holds hnode hwrite

/-! ## Errors -/

/-- An error that does not blame the chunk. -/
def Blameless (e : Text) : Prop := e ≠ text "invalid_chunk"

instance : DecidablePred Blameless := fun _ => inferInstanceAs (Decidable (_ ≠ _))

theorem attempt_blameless {error : Text} (h : Blameless error) : FailsWith Blameless (ConfinedFiles.attempt error) := by
  intro s t e he
  rcases attempt_cases error s with ⟨faults, hok⟩ | ⟨faults, herror⟩
  · rw [hok] at he
    cases he
  · rw [herror] at he
    cases he
    exact h

theorem openFile_blameless (path : Path) : FailsWith Blameless (ConfinedFiles.openFile path) := by
  refine .bind (attempt_blameless (by decide)) fun _ => .bind .get fun s => ?_
  split
  · exact .throw (by decide)
  · split
    · exact .modify _
    · exact .pure ()

theorem pwrite_blameless (i : Nat) (bytes : Bytes) : FailsWith Blameless (ConfinedFiles.pwrite i bytes) := by
  intro s t e h
  rw [ConfinedFiles.pwrite] at h
  split at h
  · cases h
  · split at h
    · cases h
      decide
    · cases h

theorem append_blameless (path : Path) (offset : Nat) (bytes : Bytes) :
    FailsWith Blameless (ConfinedFiles.append path offset bytes) := by
  refine .bind (openFile_blameless path) fun _ => .bind .get fun s => ?_
  split
  · dsimp only
    split
    · exact .throw (by decide)
    · split
      · split
        · exact .throw (by decide)
        · split
          · exact .throw (by decide)
          · exact .pure ()
      · exact .bind (pwrite_blameless _ _) fun _ => attempt_blameless (by decide)
  · exact .throw (by decide)

/-! ## Chunks -/

/-- A chunk is taken, or refused for no fault of its own. -/
def Taken (path : Path) (offset : Nat) (bytes : Bytes) : EStateM.Result Text World Text → Prop
  | .ok next w => next = decimal (offset + bytes.length) ∧ Holds w.volume.disk path offset bytes
  | .error error _ => Blameless error

/-- A message with a chunk that the entry has room for. -/
structure Fits (r : Request) (e : Sync.Entry) (offset : Nat) (bytes : Bytes) : Prop where
  position : number r.offset = some offset
  decoded : Base64.decode r.data.text = some bytes
  kind : e.isKind file
  data : r.data.isString
  short : bytes.length ≤ Replica.chunkBytes
  room : (offset + bytes.length : Int) ≤ Replica.sizeOf e

section Chunks

variable {r : Request} {e : Sync.Entry} {offset : Nat} {bytes : Bytes}

theorem Fits.passes (h : Fits r e offset bytes) :
    ¬(¬e.isKind file ∨ ¬r.data.isString ∨ Replica.chunkBytes < bytes.length ∨ Replica.sizeOf e - bytes.length < offset) := by
  have hroom := h.room
  rintro (hkind | hstring | hlong | hfull)
  · exact hkind h.kind
  · exact hstring h.data
  · exact absurd h.short (Nat.not_le.mpr hlong)
  · omega

theorem chunk_blameless (h : Fits r e offset bytes) (peer : Text) : FailsWith Blameless (Replica.chunk peer r e) := by
  rw [Replica.chunk, h.position, h.decoded]
  dsimp only
  rw [if_neg h.passes]
  refine .bind (.zoom (attempt_blameless (by decide)) _ _) fun _ => .bind (.relabel (by decide) _) fun st => ?_
  split
  · exact .throw (by decide)
  · refine .bind (.zoom (attempt_blameless (by decide)) _ _) fun _ => ?_
    exact .bind (.zoom (append_blameless _ _ _) _ _) fun _ => .pure _

theorem chunk_taken (h : Fits r e offset bytes) (peer : Text) (w : World) :
    Taken (transfer peer e) offset bytes (Replica.chunk peer r e w) := by
  cases hrun : Replica.chunk peer r e w with
  | error error v => exact chunk_blameless h peer _ _ _ hrun
  | ok next v =>
    rw [Replica.chunk, h.position, h.decoded] at hrun
    dsimp only at hrun
    rw [if_neg h.passes] at hrun
    obtain ⟨_, w₁, -, hrun⟩ := bind_eq_ok.mp hrun
    obtain ⟨st, w₂, -, hrun⟩ := bind_eq_ok.mp hrun
    split at hrun
    · cases hrun
    · obtain ⟨_, w₃, -, hrun⟩ := bind_eq_ok.mp hrun
      obtain ⟨_, w₄, happend, hrun⟩ := bind_eq_ok.mp hrun
      cases hrun
      obtain ⟨volume, hvolume, rfl⟩ := zoom_eq_ok.mp happend
      exact ⟨rfl, append_holds hvolume⟩

end Chunks

/-! ## The chunks of a download -/

theorem Carried.size {o : Order} {e : Sync.Entry} {total offset : Int} {l : List Move} (h : Carried o e total l offset) :
    toLongLong e.size.text = some total := by
  induction h with
  | begun did ok size start low high => rwa [did.size ok ⟨o, rfl⟩] at size
  | stored before short length did ok ih => exact ih

theorem fits_of_due {o : Order} {e : Sync.Entry} {l : List Move} {position : Int} {encoded : Text}
    (h : Due o e l (.chunk position encoded)) (hfile : e.isKind file) (hsize : (number e.size).isSome) :
    ∃ bytes, encoded = Base64.encode bytes ∧ Fits (messageOf e (.chunk position encoded)) e position.toNat bytes := by
  cases h with
  | @chunk _ total _ bytes before short length =>
    obtain ⟨hlow, hhigh⟩ := before.bounds
    have htotal := before.size
    have hmax : total ≤ maxCounter := by
      rw [number, htotal] at hsize
      dsimp only at hsize
      split at hsize
      · rename_i hrange
        exact hrange.2
      · cases hsize
    have hposition : number (.string (decimalInt position)) = some position.toNat := by
      rw [number, show (Value.string (decimalInt position)).text = decimalInt position from rfl,
        toLongLong_decimalInt ⟨hlow, hhigh.trans hmax⟩]
      exact if_pos ⟨hlow, hhigh.trans hmax⟩
    have hchunk : FileDownload.chunkBytes = (Replica.chunkBytes : Int) := rfl
    refine ⟨bytes, rfl, hposition, Base64.decode_encode bytes, hfile, rfl, ?_, ?_⟩
    · omega
    · rw [Replica.sizeOf, htotal, Option.getD_some]
      omega

namespace FileDownload

/-- In every run, whatever its worker finds in the replica: a chunk that is passed on for an entry with a size is not
refused as malformed by any state of a replica, and if it is taken, its bytes stand at its position. -/
theorem chunks_taken [StoreLayout] (events : List Event) (he : ∀ e ∈ events, Tokened e) {n : Nat} {position : Int}
    {encoded : Text} {q : Request} {r : Result}
    (hperformed : .performed n (.chunk position encoded) (some q) r ∈ (run {} events).log) :
    ∃ e, q.entry = some e ∧ ((number e.size).isSome → ∃ bytes, encoded = Base64.encode bytes ∧
      ∀ peer w, Taken (transfer peer e) position.toNat bytes (Replica.chunk peer q e w)) := by
  obtain ⟨earlier, -, -, -, o, e, b, -, hdue, hdid⟩ := (run_inv inv_init he).sound.inOrder.exists_of_mem hperformed
  obtain ⟨rfl, hfile, -⟩ := hdid.message q rfl
  refine ⟨e, rfl, fun hsize => ?_⟩
  obtain ⟨bytes, hencoded, hfits⟩ := fits_of_due hdue hfile hsize
  exact ⟨bytes, hencoded, fun peer w => chunk_taken hfits peer w⟩

theorem chunks_taken_notes : ∃ q r e bytes,
    .performed 1 (.chunk 0 (text "AQID")) (some q) r ∈ (@run plainLayout {} notesDownload).log ∧ q.entry = some e ∧
      text "AQID" = Base64.encode bytes ∧ ∀ peer w, Taken (transfer peer e) 0 bytes (Replica.chunk peer q e w) := by
  have hmoves : (.chunk 0 (text "AQID"), some (Value.string (text "3"))) ∈
      (moves 1 (@run plainLayout {} notesDownload).log).map fun m => (m.1, m.2.1.map fun q => (q.entry.getD {}).size) := by
    decide +kernel
  obtain ⟨⟨op, sent, r⟩, hm, heq⟩ := List.mem_map.mp hmoves
  obtain ⟨rfl, hsent⟩ := Prod.mk.inj heq
  obtain ⟨q, rfl, hsize⟩ := Option.map_eq_some_iff.mp hsent
  have hperformed := mem_moves.mp hm
  obtain ⟨e, hentry, htaken⟩ := @chunks_taken plainLayout notesDownload (by decide) _ _ _ _ _ hperformed
  rw [hentry] at hsize
  have hnumber : (number e.size).isSome := by
    rw [show e.size = .string (text "3") from hsize]
    decide
  obtain ⟨bytes, hencoded, hstaged⟩ := htaken hnumber
  exact ⟨q, r, e, bytes, hperformed, hentry, hencoded, hstaged⟩

end FileDownload

end SocietyHelper.Media
