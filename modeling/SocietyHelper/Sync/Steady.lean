import SocietyHelper.Sync.Requests

/-! # What every step of a replica keeps

A frame that the elementary steps keep is kept by the merge and by every
request built from them. The elementary steps are named once, in `Steady`.
-/

namespace SocietyHelper.Sync

open Library Effect

namespace Replica

/-- The names of a staged file below the container. -/
def staged (part : Path) : Prop := ∃ name, part = transfers ++ [name]

theorem staged_transfer (peer : Text) (e : Entry) : staged (transfer peer e) := ⟨_, rfl⟩

theorem keeps_orElse {F : Frame World} {α : Type} {m : Effect Volume α} (hm : Keeps F (onVolume m)) (a : α) :
    Keeps F (onVolume (orElse a m)) := by
  intro w
  have hw := hm w
  rw [onVolume, zoom] at hw ⊢
  rw [Effect.orElse]
  cases hv : m w.volume with
  | ok b v =>
    rw [hv] at hw
    exact hw
  | error e v =>
    rw [hv] at hw
    exact hw

theorem nativeOf_eq [StoreLayout] {key : Text} (h : '/' ∈ key) : nativeOf key = physical key := by
  rw [nativeOf]
  split
  · rename_i s hs
    have hkey := List.find?_some hs
    simp [h] at hkey
  · rfl

/-- Recording what is found looks at the disk, counts and saves. -/
theorem keeps_observed [StoreLayout] {F : Frame World}
    (hlook : ∀ {α : Type} (error : Text) (f : Disk → Except Text α), Keeps F (onVolume (ConfinedFiles.look error f)))
    (hcount : ∀ n, Keeps F (onDatabase (Database.setMeta (text "counter") n)))
    (hsave : ∀ input stamp, Keeps F (save input stamp)) (path : Text) (st : FileState) (verified : Text) :
    Keeps F (observed path st verified) := by
  rw [Replica.observed]
  refine .bind .get fun w => .ite (fun _ => .pure _) fun _ => .ite (fun _ => .pure _) fun _ =>
    .ite (fun _ => .pure _) fun _ => ?_
  extract_lets _ _ rest
  have hrest : ∀ hash, Keeps F (rest hash) := fun hash =>
    .ite (fun _ => hsave _ _) fun _ => .ite (fun _ => .throw _) fun _ => .bind (hcount _) fun _ => hsave _ _
  exact .ite (fun _ => .ite (fun _ => .bind (hlook _ _) hrest) fun _ => .bind (.pure _) hrest) fun _ =>
    .bind (.pure _) hrest

/-- A frame that a request with the bytes or the record of one entry keeps step by step. -/
structure Carrying [StoreLayout] (peer : Text) (incoming : Entry) (F : Frame World) : Prop where
  attempt : ∀ error, Keeps F (onVolume (ConfinedFiles.attempt error))
  look : ∀ {α : Type} (error : Text) (f : Disk → Except Text α), Keeps F (onVolume (ConfinedFiles.look error f))
  append : ∀ offset bytes, Keeps F (onVolume (ConfinedFiles.append (transfer peer incoming) offset bytes))
  discard : Keeps F (onVolume (ConfinedFiles.remove (transfer peer incoming)))
  count : ∀ n, Keeps F (onDatabase (Database.setMeta (text "counter") n))
  save : ∀ input stamp, Keeps F (save input stamp)
  propose : ∀ proposal base, Keeps F (modify fun w => { w with proposal, proposalBase := base })
  settle : ∀ s : Sight, s.incoming = incoming → Keeps F (settle s (transfer peer incoming))

namespace Carrying

variable [StoreLayout] {peer : Text} {incoming : Entry} {F : Frame World} (h : Carrying peer incoming F)

include h

theorem observed (path : Text) (st : FileState) (verified : Text) : Keeps F (observed path st verified) :=
  keeps_observed h.look h.count h.save path st verified

theorem refresh (path : Text) : Keeps F (refresh path) :=
  .bind (h.look _ _) fun _ => .bind (h.look _ _) fun _ => h.observed _ _ _

theorem announcePart (e : Entry) : Keeps F (announcePart (transfer peer incoming) e) :=
  .bind (h.look _ _) fun _ => .when (fun _ => h.append _ _) fun _ => .ite (fun _ => .throw _) fun _ => .pure _

theorem retains (path : Text) (incoming mine : Entry) : Keeps F (retains path incoming mine) :=
  .ite (fun _ => .bind (h.look _ _) fun _ => .pure _) fun _ => .pure _

theorem merge (commit : Bool) : Keeps F (merge peer incoming commit) := by
  refine .bind (h.refresh _) fun _ => .bind .get fun w => .ite (fun _ => .throw _) fun _ => ?_
  refine .ite (fun _ => .bind (h.save _ _) fun _ => .pure _) fun _ => .ite (fun _ => .throw _) fun _ => ?_
  refine .ite (fun _ => .when (fun _ => h.save _ _) fun _ => .pure _) fun _ => .ite (fun _ => .throw _) fun _ => ?_
  refine .bind (h.retains _ _ _) fun _ => .ite (fun _ => .bind (h.save _ _) fun _ => .pure _) fun _ => ?_
  exact .ite (fun _ => h.announcePart _) fun _ => h.settle _ rfl

theorem stageInline (bytes : Bytes) : Keeps F (stageInline (transfer peer incoming) bytes) :=
  .bind (h.look _ _) fun _ => .when (fun _ => h.discard) fun _ => h.append _ _

theorem mergeProposal (commit : Bool) : Keeps F (mergeProposal peer incoming commit) :=
  .bind (h.propose _ _) fun _ => .andThen (h.merge commit) (h.propose _ _)

/-- The begin, commit and apply actions: after everything else, a completed entry is noted. -/
theorem begin_ (manifest : Option Manifest) (r : Request) :
    Concludes F
      (fun w outcome v => ∃ u, F.rel w u ∧ v =
        if (manifest.any fun m => !m.snapshot.isEmpty) ∧ outcome = .complete
        then final (applied peer incoming.path.text u) else u)
      (begin_ peer manifest r incoming) := by
  have htrans : ∀ {w u v : World} {o : Outcome}, F.rel w u →
      (∃ x, F.rel u x ∧ v = if (manifest.any fun m => !m.snapshot.isEmpty) ∧ o = .complete
        then final (applied peer incoming.path.text x) else x) →
      ∃ x, F.rel w x ∧ v = if (manifest.any fun m => !m.snapshot.isEmpty) ∧ o = .complete
        then final (applied peer incoming.path.text x) else x := by
    rintro w u v o hwu ⟨x, hux, rfl⟩
    exact ⟨x, F.trans hwu hux, rfl⟩
  rw [Replica.begin_]
  refine .ite (fun _ => .throw _) fun _ => ?_
  extract_lets part inlineCommit
  refine .ite (fun _ => .throw _) fun _ => ?_
  refine .when (fun _ => h.attempt _) (fun _ => ?_) htrans
  refine .when (fun _ => h.attempt _) (fun _ => ?_) htrans
  refine .when (fun _ => h.stageInline _) (fun _ => ?_) htrans
  refine .bind (h.mergeProposal _) (fun outcome => ?_) htrans
  refine .when (fun _ => h.discard) (fun _ => ?_) htrans
  intro w
  right
  split
  · rename_i hnote
    exact ⟨outcome, _, rfl, w, F.refl w, (if_pos hnote).symm⟩
  · rename_i hnote
    exact ⟨outcome, _, rfl, w, F.refl w, (if_neg hnote).symm⟩

theorem chunk (r : Request) : Keeps F (chunk peer r incoming) := by
  rw [Replica.chunk]
  split
  · refine .ite (fun _ => .throw _) fun _ => .bind (h.attempt _) fun _ => ?_
    refine .bind (.relabel (h.look _ _) _) fun _ => .ite (fun _ => .throw _) fun _ => ?_
    exact .bind (h.attempt _) fun _ => .bind (h.append _ _) fun _ => .pure _
  · exact .throw _

theorem readChunk (r : Request) (e : Entry) :
    Concludes F (fun w a v => F.rel w v ∧ ∃ offset data version, a = .read offset data version) (readChunk r e) := by
  have htrans : ∀ {w u v : World} {a : Response}, F.rel w u →
      (F.rel u v ∧ ∃ offset data version, a = .read offset data version) →
      F.rel w v ∧ ∃ offset data version, a = .read offset data version :=
    fun hwu hv => ⟨F.trans hwu hv.1, hv.2⟩
  refine .bind (h.refresh _) (fun _ => .bind .get (fun w => ?_) htrans) htrans
  split
  · refine .ite (fun _ => .throw _) fun _ => .bind (h.look _ _) (fun _ => .pure fun w => ?_) htrans
    exact ⟨F.refl w, _, _, _, rfl⟩
  · exact .throw _

theorem expect (r : Request) (e : Entry) : Keeps F (expect r e) := by
  refine .ite (fun _ => .ite (fun _ => .throw _) fun _ => ?_) fun _ => .pure _
  exact .bind (.relabel (h.refresh _) _) fun _ => .bind .get fun w => .ite (fun _ => .throw _) fun _ => .pure _

end Carrying

/-- A frame that the elementary steps of every request keep. -/
structure Steady [StoreLayout] (F : Frame World) : Prop where
  attempt : ∀ error, Keeps F (onVolume (ConfinedFiles.attempt error))
  look : ∀ {α : Type} (error : Text) (f : Disk → Except Text α), Keeps F (onVolume (ConfinedFiles.look error f))
  append : ∀ {part}, staged part → ∀ offset bytes, Keeps F (onVolume (ConfinedFiles.append part offset bytes))
  discard : ∀ {part}, staged part → Keeps F (onVolume (ConfinedFiles.remove part))
  mkdir : ∀ key, Keeps F (onVolume (ConfinedFiles.mkdir (physical key)))
  remove : ∀ {key}, physical key ≠ [] → Keeps F (onVolume (ConfinedFiles.remove (physical key)))
  preserve : ∀ key copy, Keeps F (onVolume (ConfinedFiles.preserve (physical key) (physical copy)))
  install : ∀ {part key}, staged part → physical key ≠ [] →
    Keeps F (onVolume (ConfinedFiles.install part (physical key)))
  count : ∀ n, Keeps F (onDatabase (Database.setMeta (text "counter") n))
  save : ∀ input stamp, Keeps F (save input stamp)
  propose : ∀ proposal base, Keeps F (modify fun w => { w with proposal, proposalBase := base })
  draw : Keeps F (onVolume ConfinedFiles.draw)
  unlink : ∀ {part}, staged part → Keeps F (onVolume (ConfinedFiles.change fun d => d.unlink part))
  publish : ∀ {key}, physical key ≠ [] → ∀ bytes, Keeps F (publish (physical key) bytes)
  savepoint : Keeps F (onDatabase (Database.statement some))
  restore : ∀ w v, F.rel w v → F.rel w { v with db := Database.restore w.db v.db }

namespace Steady

variable [StoreLayout] {F : Frame World} (h : Steady F)

include h

theorem ready : Keeps F ready := h.attempt _

theorem lock : Keeps F lock := .bind h.ready fun _ => h.attempt _

theorem observed (path : Text) (st : FileState) (verified : Text) : Keeps F (observed path st verified) :=
  keeps_observed h.look h.count h.save path st verified

theorem refresh (path : Text) : Keeps F (refresh path) :=
  .bind (h.look _ _) fun _ => .bind (h.look _ _) fun _ => h.observed _ _ _

theorem verifyPart {part : Path} (hpart : staged part) (incoming : Entry) : Keeps F (verifyPart part incoming) :=
  .bind (h.look _ _) fun _ => .ite (fun _ => .throw _) fun _ => .bind (h.look _ _) fun _ =>
    .ite (fun _ => .bind (h.discard hpart) fun _ => .throw _) fun _ => .pure _

theorem keepCopy {part : Path} (hpart : staged part) (s : Sight) : Keeps F (keepCopy s part) := by
  refine .ite (fun _ => .throw _) fun hcopy => .bind (h.look _ _) fun existing => ?_
  extract_lets rest
  have hrest : ∀ u, Keeps F (rest u) := fun _ => .bind (h.look _ _) fun _ => h.save _ _
  refine .ite (fun _ => .bind (keeps_orElse (h.look _ _) _) fun _ => ?_) fun _ => .ite (fun _ => ?_) fun _ => ?_
  · exact .ite (fun _ => .bind (.throw _) hrest) fun _ => hrest ()
  · exact .bind (h.preserve _ _) hrest
  · exact .bind (h.install hpart hcopy) hrest

theorem materialize {part : Path} (hpart : staged part) {s : Sight} (hpath : physical s.incoming.path.text ≠ []) :
    Keeps F (materialize s part) :=
  .ite (fun _ => .when (fun _ => h.remove hpath) fun _ => h.install hpart hpath) fun _ =>
    .ite (fun _ => .when (fun _ => h.remove hpath) fun _ => h.mkdir _) fun _ => h.remove hpath

theorem settle {part : Path} (hpart : staged part) {s : Sight} (hpath : physical s.incoming.path.text ≠ []) :
    Keeps F (settle s part) := by
  rw [Replica.settle]
  refine .when (fun _ => h.verifyPart hpart _) fun _ => ?_
  refine .when (fun _ => h.keepCopy hpart s) fun _ => ?_
  refine .when (fun _ => h.materialize hpart hpath) fun _ => ?_
  exact .bind (h.look _ _) fun _ => .bind (h.save _ _) fun _ => .pure _

/-- Whatever entry a request carries. -/
theorem carrying {incoming : Entry} (hpath : physical incoming.path.text ≠ []) (peer : Text) :
    Carrying peer incoming F where
  attempt := h.attempt
  look := h.look
  append := h.append (staged_transfer peer incoming)
  discard := h.discard (staged_transfer peer incoming)
  count := h.count
  save := h.save
  propose := h.propose
  settle := by
    rintro s rfl
    exact h.settle (staged_transfer peer _) hpath

theorem driveRequest (r : Request) :
    Concludes F (fun w a v => F.rel w v ∧ ∃ path pending, a = .drive path pending) (driveRequest r) := by
  have htrans : ∀ {w u v : World} {a : Response}, F.rel w u → (F.rel u v ∧ ∃ path pending, a = .drive path pending) →
      F.rel w v ∧ ∃ path pending, a = .drive path pending :=
    fun hwu hv => ⟨F.trans hwu hv.1, hv.2⟩
  refine .bind h.lock (fun _ => .bind .get (fun w => ?_) htrans) htrans
  refine .ite (fun _ => .throw _) fun _ => .ite (fun _ => .throw _) fun _ => .ite (fun _ => .throw _) fun hnative => ?_
  refine .bind (h.look _ _) (fun _ => .ite (fun _ => .throw _) fun _ => .ite (fun _ => .throw _) fun hentry => ?_) htrans
  refine .bind (.relabel (h.look _ _) _) (fun _ => .ite (fun _ => .throw _) fun _ => ?_) htrans
  have hkey : nativeOf r.path.text = physical r.path.text := nativeOf_eq (by_contra fun hslash => hentry (Or.inl hslash))
  rw [hkey] at hnative ⊢
  extract_lets rest
  have hrest : ∀ u, Concludes F (fun w a v => F.rel w v ∧ ∃ path pending, a = .drive path pending) (rest u) := fun _ =>
    .bind (.orElse (.bind (h.refresh _) fun _ => .pure _) _) (fun _ => .pure fun w => ⟨F.refl w, _, _, rfl⟩) htrans
  refine .ite (fun _ => .bind (h.mkdir _) hrest htrans) fun _ => ?_
  split
  · exact .ite (fun _ => .bind (.throw _) hrest htrans) fun _ =>
      .bind (h.publish (fun hnil => hnative (Or.inl hnil)) _) hrest htrans
  · exact .bind (.throw _) hrest htrans

theorem scanItem (item : Work) : Keeps F (scanItem item) := by
  refine .bind .get fun w => .ite (fun _ => .pure _) fun _ => ?_
  extract_lets rest
  have hrest : ∀ hash, Keeps F (rest hash) := fun _ =>
    .bind h.lock fun _ => .rollback (.bind (h.look _ _) fun _ => .ite (fun _ => .throw _) fun _ => h.observed _ _ _) h.restore
  exact .ite (fun _ => .bind (h.look _ _) hrest) fun _ => .bind (.pure _) hrest

theorem scanAbsent (path : Text) : Keeps F (scanAbsent path) :=
  .bind (h.look _ _) fun _ => .ite (fun _ => h.observed _ _ _) fun _ => .pure _

theorem scan : Keeps F scan := by
  refine .bind h.ready fun _ => .bind (h.look _ _) fun _ => .bind (.forM fun item _ => h.scanItem item) fun _ => ?_
  refine .bind .get fun w => .ite (fun _ => .pure _) fun _ => .bind h.lock fun _ => ?_
  exact .rollback (.forM fun path _ => h.scanAbsent path) h.restore

theorem readSnapshot {α : Type} (read : World → Except Text α) : Keeps F (readSnapshot read) := by
  refine .bind h.ready fun _ => .bind h.savepoint fun _ => .bind .get fun w => ?_
  split
  · exact .pure _
  · exact .throw _

theorem journalRequest (r : Request) : Keeps F (journalRequest r) := by
  refine .bind .get fun w => .ite (fun _ => .throw _) fun _ => ?_
  split
  · exact h.readSnapshot _
  · exact .throw _

theorem changesRequest (r : Request) (refreshIndex : Bool) : Keeps F (changesRequest r refreshIndex) := by
  rw [Replica.changesRequest]
  split
  · exact .when (fun _ => h.scan) fun _ => h.readSnapshot _
  · exact .throw _

theorem acceptMetadata (peer : Text) (incoming : Entry) : Keeps F (acceptMetadata peer incoming) := by
  refine .bind h.lock fun _ => .bind .get fun w => .ite (fun _ => .throw _) fun hvalid => ?_
  have hpath : physical incoming.path.text ≠ [] :=
    (validRecord_iff.mp (by_contra fun hinvalid => hvalid (Or.inl hinvalid))).path
  refine .bind (h.refresh _) fun _ => .bind .get fun w => .ite (fun _ => .throw _) fun _ => ?_
  have hhere : Keeps F (resident incoming.path.text) :=
    .bind .get fun w => .ite (fun _ => .pure _) fun _ => .bind (keeps_orElse (h.look _ _) _) fun _ => .pure _
  refine .bind hhere fun _ => .ite (fun _ => h.save _ _) fun _ => .ite (fun _ => .throw _) fun _ => ?_
  exact .when (fun _ => h.remove hpath) fun _ => h.save _ _

theorem restoreObject (path : Text) (fetched : Option Bytes) : Keeps F (restoreObject path fetched) := by
  refine .bind h.lock fun _ => .bind .get fun w => .ite (fun _ => .throw _) fun _ => .ite (fun _ => .throw _) fun hpath => ?_
  have htarget : physical path ≠ [] := fun hnil => hpath (Or.inl hnil)
  refine .bind (h.look _ _) fun _ => .ite (fun _ => .throw _) fun _ => .bind h.draw fun _ => ?_
  refine .bind (.onError ?_ (h.unlink ⟨_, rfl⟩)) fun _ => h.save _ _
  split
  · exact .throw _
  · refine .bind (h.append ⟨_, rfl⟩ _ _) fun _ => .bind h.lock fun _ => .bind (h.look _ _) fun _ => ?_
    exact .ite (fun _ => .throw _) fun _ => .bind (h.install ⟨_, rfl⟩ htarget) fun _ => h.look _ _

end Steady
end Replica
end SocietyHelper.Sync
