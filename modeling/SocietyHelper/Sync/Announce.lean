import SocietyHelper.Sync.JournalReplication
import SocietyHelper.Sync.ManifestProtocol
import SocietyHelper.Sync.Rows

/-! # Announcing what a mirror has to send

The mirror gathers its proposals page by page, cuts them into manifest pages and
sends these to the host. Three pagers written apart from each other meet here.
-/

namespace SocietyHelper.Sync

open Library Effect

namespace Replica

/-! ## The client -/

def bootstrapping (w : World) : Bool := isMirror w && w.db.meta_ (text "bootstrapComplete") ≠ text "1"

/-- What may happen to a mirror between two of its pages: others change its files, or it records
what it finds there. -/
inductive LocalStep where
  | outside (volume : Volume) (faults : List Bool)
  | scan
  | refresh (path : Text)

def LocalStep.run [StoreLayout] : LocalStep → World → World
  | outside volume faults, w => { w with volume, db := { w.db with faults } }
  | scan, w => final (Replica.scan w)
  | refresh path, w => final (Replica.refresh path w)

def runAll [StoreLayout] (steps : List LocalStep) (w : World) : World := steps.foldl (fun w s => s.run w) w

/-- The mirror before its page with number `k`. -/
def edited [StoreLayout] (steps : Nat → List LocalStep) (w : World) : Nat → World
  | 0 => w
  | k + 1 => runAll (steps k) (edited steps w k)

/-- Read pages of proposals up to the sequence found first. After page `k` the steps `steps k` happen. -/
def collect [StoreLayout] (steps : Nat → List LocalStep) :
    Nat → Nat → Int → Int → List Entry → Effect World (List Entry × Int)
  | 0, _, _, _, _ => throw (text "fuel")
  | fuel + 1, k, cursor, upper, outgoing => do
    let page ← changes cursor upper
    let upper := (toLongLong page.through.text).getD 0
    let cursor := (toLongLong page.next.text).getD 0
    let outgoing := outgoing ++ page.entries.getD []
    if 250000 < outgoing.length then throw (text "manifest_capacity")
    else if page.more.toBool then
      modify (runAll (steps k))
      collect steps fuel (k + 1) cursor upper outgoing
    else pure (outgoing, upper)

/-- What is to be sent and up to which sequence; nothing is sent before the first adoption is complete. -/
def announceLocal [StoreLayout] (steps : Nat → List LocalStep) (fuel : Nat) (pushed : Int) :
    Effect World (List Entry × Int) := do
  let w ← get
  if bootstrapping w then pure ([], pushed) else collect steps fuel 0 pushed 0 []

structure Announcement where
  outgoing : List Entry
  pushed : Int
  through : Int
  snapshot : Snapshot
  replica : Text
  container : Text

/-- The snapshot of a mirror's proposals: what they are based on. -/
def snapshotOf (w : World) (id : Text) (capturedAt : Nat) : Snapshot where
  schema := .other (text "1")
  id := .string id
  capturedAt := .string (decimal capturedAt)
  baseSequence := .string ((journal w).state w.db).sequence
  baseRevision := .string ((journal w).state w.db).head

namespace Announcement

variable (a : Announcement)

def id : Text := sha256 (a.outgoing.flatMap entryLine)

/-- The entries of the page that starts at an index. -/
def page (start : Nat) : List Entry :=
  (Paging.within (fun e => utf8Size e.json) (256 * 1024) ((a.outgoing.drop start).take 128)).1

def request (start : Nat) : Request where
  action := text "manifest"
  container := .string a.container
  manifest := .string a.id
  replica := .string a.replica
  offset := .string (decimal start)
  total := .string (decimal a.outgoing.length)
  after := .string (decimalInt a.pushed)
  through := .string (decimalInt a.through)
  entries := some (a.page start)
  snapshot := .whole a.snapshot

end Announcement

/-- Send the pages one after the other and check what the host acknowledges. -/
def announcePages [StoreLayout] (peer : Text) (a : Announcement) : Nat → Nat → Effect World Acknowledgement
  | 0, _ => throw (text "fuel")
  | fuel + 1, start => do
    let answer ← handle peer (a.request start) true
    match answer with
    | .manifest r =>
      let reached := start + (a.page start).length
      let complete : Bool := reached = a.outgoing.length
      if r.manifest ≠ a.id ∨ r.next ≠ decimal reached ∨ r.complete ≠ complete then
        throw (text "invalid_manifest_acknowledgement")
      else if ¬complete then announcePages peer a fuel reached
      else if r.snapshot ≠ some a.snapshot ∨ r.diff.isNone then throw (text "invalid_snapshot_analysis")
      else pure r
    | _ => throw (text "invalid_manifest_acknowledgement")

/-! ## Gathering proposals -/

/-- The entries are numbered upwards from a sequence, up to another one. -/
def Climbs (through : Int) : Int → List Entry → Prop
  | _, [] => True
  | last, e :: es => ∃ n : Nat, number e.sequence = some n ∧ last < n ∧ (n : Int) ≤ through ∧ Climbs through n es

theorem Climbs.append {through last top : Int} {es fs : List Entry} (h : Climbs through last es)
    (hf : Climbs through top fs) (hlast : last ≤ top)
    (htop : ∀ e ∈ es, ∀ n : Nat, number e.sequence = some n → (n : Int) ≤ top) : Climbs through last (es ++ fs) := by
  induction es generalizing last with
  | nil =>
    cases fs with
    | nil => trivial
    | cons f fs =>
      obtain ⟨n, hn, hlt, hle, hrest⟩ := hf
      exact ⟨n, hn, Int.lt_of_le_of_lt hlast hlt, hle, hrest⟩
  | cons e es ih =>
    obtain ⟨n, hn, hlt, hle, hrest⟩ := h
    exact ⟨n, hn, hlt, hle, ih hrest (htop e List.mem_cons_self n hn) fun e' he' =>
      htop e' (List.mem_cons_of_mem e he')⟩

/-- The rows stand in the order of their sequences, all above one. -/
def Sorted (last : Int) (rows : List EntryRow) : Prop := (last :: rows.map EntryRow.sequence).Pairwise (· < ·)

/-- The rows whose entries are proposals. -/
def proposals (rows : List EntryRow) : List EntryRow := rows.filter fun r => !r.data.revision.defined

/-- `gather` takes a front of the rows; it stops early only where an entry does not fit. -/
theorem gather_eq (rows : List EntryRow) :
    ∀ (budget : Nat) (next : Int) (entries : List Entry), ∃ front back, rows = front ++ back ∧
      gather rows budget next entries =
        (entries.reverse ++ (proposals front).map proposalOf, (front.getLast?.map EntryRow.sequence).getD next,
          !back.isEmpty) ∧
      (back ≠ [] → (∀ r ∈ front, r.data.revision.defined) → ∃ r ∈ back, ¬r.data.revision.defined ∧
        budget < utf8Size (proposalOf r).json + 1) := by
  induction rows with
  | nil =>
    intro budget next entries
    exact ⟨[], [], rfl, by simp [gather, proposals], fun h => absurd rfl h⟩
  | cons r rows ih =>
    intro budget next entries
    rw [gather]
    split
    · rename_i hdefined
      obtain ⟨front, back, rfl, heq, hstop⟩ := ih budget r.sequence entries
      refine ⟨r :: front, back, rfl, ?_, fun hback hall => hstop hback fun s hs => hall s (List.mem_cons_of_mem r hs)⟩
      rw [heq]
      cases front <;> simp [proposals, hdefined, List.getLast?_cons]
    · rename_i hpending
      split
      · rename_i hbudget
        exact ⟨[], r :: rows, rfl, by simp [proposals], fun _ _ => ⟨r, List.mem_cons_self, hpending, hbudget⟩⟩
      · obtain ⟨front, back, rfl, heq, hstop⟩ := ih (budget - (utf8Size (proposalOf r).json + 1)) r.sequence
          (proposalOf r :: entries)
        refine ⟨r :: front, back, rfl, ?_, fun _ hall => absurd (hall r List.mem_cons_self) hpending⟩
        rw [heq]
        cases front <;> simp [proposals, hpending, List.getLast?_cons]

theorem mem_rowsBetween {db : Database} {after through : Int} {r : EntryRow} (h : r ∈ rowsBetween db after through) :
    (∃ path, db.entries.find? path = some r) ∧ after < r.sequence ∧ r.sequence ≤ through := by
  have hfiltered := (List.mem_insertionSort _).mp (List.mem_of_mem_take h)
  obtain ⟨hmem, hrange⟩ := List.mem_filter.mp hfiltered
  obtain ⟨⟨path, r⟩, hrow, rfl⟩ := List.mem_map.mp hmem
  exact ⟨⟨path, (Table.mem_rows_iff _ _ _).mp hrow⟩, of_decide_eq_true hrange⟩

theorem pairwise_sequences {db : Database} (h : Rows db) :
    (db.entries.rows.map Prod.snd).Pairwise fun a b => a.sequence ≠ b.sequence := by
  have hkeys : db.entries.rows.Pairwise fun a b => a.1 ≠ b.1 := List.pairwise_map.mp db.entries.unique
  refine List.pairwise_map.mpr (hkeys.imp_of_mem ?_)
  rintro ⟨p, r⟩ ⟨q, s⟩ hp hq hne hseq
  exact hne (h.distinct ((Table.mem_rows_iff _ _ _).mp hp) ((Table.mem_rows_iff _ _ _).mp hq) hseq)

theorem sorted_rowsBetween {db : Database} (h : Rows db) (after through : Int) :
    Sorted after (rowsBetween db after through) := by
  refine List.pairwise_cons.mpr ⟨?_, ?_⟩
  · intro n hn
    obtain ⟨r, hr, rfl⟩ := List.mem_map.mp hn
    exact (mem_rowsBetween hr).2.1
  · refine List.pairwise_map.mpr (List.Pairwise.sublist (List.take_sublist _ _) ?_)
    have hle := List.pairwise_insertionSort (fun a b : EntryRow => a.sequence ≤ b.sequence)
      ((db.entries.rows.map Prod.snd).filter fun r => after < r.sequence ∧ r.sequence ≤ through)
    have hne : (((db.entries.rows.map Prod.snd).filter fun r => after < r.sequence ∧ r.sequence ≤ through).insertionSort
        fun a b => a.sequence ≤ b.sequence).Pairwise fun a b => a.sequence ≠ b.sequence :=
      ((List.perm_insertionSort _ _).pairwise_iff fun hab => Ne.symm hab).mpr ((pairwise_sequences h).filter _)
    exact (hle.and hne).imp fun hab => lt_of_le_of_ne hab.1 hab.2

/-- The next page of a mirror: a front of the rows between two sequences, all of them unless more follow. -/
theorem mirrorChanges_ok {w : World} (h : Rows w.db) {after through t : Int}
    (ht : t = if through = 0 then metaNumber w.db sequenceKey else through) (hafter : 0 ≤ after) (hle : after ≤ t)
    (hcurrent : t ≤ metaNumber w.db sequenceKey)
    (hfits : ∀ r ∈ rowsBetween w.db after t, ¬r.data.revision.defined → utf8Size (proposalOf r).json ≤ 16384) :
    ∃ (front : List EntryRow) (next : Int) (more : Bool), front <+: rowsBetween w.db after t ∧
      mirrorChanges w after through = .ok
        { ok := .bool true, container := .string w.container, replica := .string w.id
          entries := some ((proposals front).map proposalOf), through := .string (decimalInt t)
          next := .string (decimalInt next), more := .bool more } ∧
      next ≤ t ∧ (∀ r ∈ front, r.sequence ≤ next) ∧ (more = true → after < next) ∧
      (more = false → next = t ∧ front = rowsBetween w.db after t) := by
  obtain ⟨front, back, hsplit, hgather, hstop⟩ := gather_eq (rowsBetween w.db after t) (256 * 1024) after []
  have hsorted := sorted_rowsBetween h after t
  have hlast : ∀ r, front.getLast? = some r → after < r.sequence ∧ r.sequence ≤ t ∧ ∀ s ∈ front, s.sequence ≤ r.sequence := by
    intro r hr
    have hmem : r ∈ rowsBetween w.db after t := hsplit ▸ List.mem_append_left _ (List.mem_of_getLast? hr)
    refine ⟨(mem_rowsBetween hmem).2.1, (mem_rowsBetween hmem).2.2, fun s hs => ?_⟩
    obtain ⟨init, rfl⟩ := List.getLast?_eq_some_iff.mp hr
    rcases List.mem_append.mp hs with hs | hs
    · have hpair : (init ++ [r]).Pairwise fun a b => a.sequence < b.sequence :=
        List.Pairwise.sublist (hsplit ▸ List.sublist_append_left _ _) (List.pairwise_map.mp (List.pairwise_cons.mp hsorted).2)
      exact Int.le_of_lt ((List.pairwise_append.mp hpair).2.2 s hs r (List.mem_singleton_self r))
    · rw [List.mem_singleton.mp hs]
  have hnonempty : back ≠ [] → front ≠ [] := by
    rintro hback rfl
    obtain ⟨r, hr, hpending, hbig⟩ := hstop hback (by simp)
    have hsmall := hfits r (by rw [hsplit]; exact List.mem_append_right _ hr) hpending
    omega
  have hcases : ∀ more : Bool, (more = true → front ≠ []) → (more = false → back = []) →
      ∃ next : Int, next = (if more then (front.getLast?.map EntryRow.sequence).getD after else t) ∧ next ≤ t ∧
        (∀ r ∈ front, r.sequence ≤ next) ∧ (more = true → after < next) ∧
        (more = false → next = t ∧ front = rowsBetween w.db after t) := by
    intro more hmore hless
    cases more with
    | true =>
      obtain ⟨r, hr⟩ : ∃ r, front.getLast? = some r :=
        Option.ne_none_iff_exists'.mp fun hnone => hmore rfl (List.getLast?_eq_none_iff.mp hnone)
      obtain ⟨hlow, hhigh, hall⟩ := hlast r hr
      exact ⟨_, rfl, by simp [hr, hhigh], by simpa [hr] using hall, by simp [hr, hlow], by simp⟩
    | false =>
      refine ⟨t, rfl, Int.le_refl t, fun r hr => ?_, by simp, fun _ => ⟨rfl, ?_⟩⟩
      · exact (mem_rowsBetween (by rw [hsplit]; exact List.mem_append_left _ hr)).2.2
      · rw [hsplit, hless rfl, List.append_nil]
  obtain ⟨next, hnext, hbounds⟩ := hcases
    (!back.isEmpty || ((rowsBetween w.db after t).length = 128 && (front.getLast?.map EntryRow.sequence).getD after < t))
    (by
      intro hmore
      rcases Bool.or_eq_true_iff.mp hmore with hback | hfull
      · exact hnonempty (by simpa using hback)
      · simp only [Bool.and_eq_true, decide_eq_true_eq] at hfull
        rintro rfl
        by_cases hback : back = []
        · rw [hsplit, hback] at hfull
          exact absurd hfull.1 (by decide)
        · exact hnonempty hback rfl)
    (by
      intro hmore
      have hback := (Bool.or_eq_false_iff.mp hmore).1
      simpa using hback)
  refine ⟨front, next, _, ⟨back, hsplit.symm⟩, ?_, hbounds⟩
  have hthrough : (if through = 0 then metaNumber w.db (text "sequence") else through) = t := ht.symm
  have hvalid : ¬(after < 0 ∨ t < after ∨ metaNumber w.db (text "sequence") < t) := by
    change ¬(after < 0 ∨ t < after ∨ metaNumber w.db sequenceKey < t)
    omega
  simp only [mirrorChanges, hthrough]
  rw [if_neg hvalid, hgather, hnext]
  rfl

/-! ## Local steps -/

theorem mirrorKept_run [StoreLayout] {w : World} (hmirror : isMirror w) (step : LocalStep) : MirrorKept w (step.run w) := by
  cases step with
  | outside volume faults => exact ⟨mirrorRows_same rfl rfl rfl, rfl, rfl⟩
  | scan => exact steady_mirror.scan w hmirror
  | refresh path => exact steady_mirror.refresh path w hmirror

theorem mirrorKept_runAll [StoreLayout] {w : World} (hmirror : isMirror w) (steps : List LocalStep) :
    MirrorKept w (runAll steps w) := by
  induction steps generalizing w with
  | nil => exact ⟨mirrorRows.refl _, rfl, rfl⟩
  | cons step steps ih =>
    have hstep := mirrorKept_run hmirror step
    have hrest := ih (hstep.isMirror.trans hmirror)
    exact ⟨mirrorRows.trans hstep.db hrest.db, hrest.id.trans hstep.id, hrest.container.trans hstep.container⟩

theorem mirrorKept_edited [StoreLayout] {w : World} (hmirror : isMirror w) (steps : Nat → List LocalStep) (k : Nat) :
    MirrorKept w (edited steps w k) := by
  induction k with
  | zero => exact ⟨mirrorRows.refl _, rfl, rfl⟩
  | succ k ih =>
    have hstep := mirrorKept_runAll (ih.isMirror.trans hmirror) (steps k)
    exact ⟨mirrorRows.trans ih.db hstep.db, hstep.id.trans ih.id, hstep.container.trans ih.container⟩

/-! ## The outgoing list -/

/-- What the host wants of an announced entry. -/
structure Proper [StoreLayout] (e : Entry) : Prop where
  valid : validRecord e
  plain : plainEntry e
  base : e.baseRevision.defined

/-- What has been gathered up to a cursor: entries of different paths, in order, none of which can
be met again between the cursor and the last sequence. -/
structure Gathered [StoreLayout] (paths : List Text) (pushed through cursor : Int) (db : Database) (outgoing : List Entry) :
    Prop where
  climbs : Climbs through pushed outgoing
  below : ∀ e ∈ outgoing, ∀ n : Nat, number e.sequence = some n → (n : Int) ≤ cursor
  proper : ∀ e ∈ outgoing, Proper e
  distinct : (outgoing.map fun e => e.path.text).Nodup
  known : ∀ e ∈ outgoing, e.path.text ∈ paths
  past : ∀ e ∈ outgoing, ∀ row, db.entries.find? e.path.text = some row → row.sequence ≤ through → row.sequence ≤ cursor

theorem gathered_nil [StoreLayout] (paths : List Text) (pushed through : Int) (db : Database) :
    Gathered paths pushed through pushed db [] := by
  constructor <;> simp [Climbs]

/-- Rows that move stay out of reach. -/
theorem Gathered.evolve [StoreLayout] {paths : List Text} {pushed through cursor : Int} {s t : Database}
    {outgoing : List Entry} (h : Gathered paths pushed through cursor s outgoing) (hevolves : Evolves s t)
    (hthrough : through ≤ metaNumber s sequenceKey) : Gathered paths pushed through cursor t outgoing := by
  refine { h with past := fun e he row hrow hle => ?_ }
  rcases hevolves.moved hrow with hnew | ⟨before, hbefore, hsequence, -⟩
  · omega
  · rw [hsequence] at hle ⊢
    exact h.past e he before hbefore hle

theorem number_decimalInt {n : Int} (h : 0 ≤ n ∧ n ≤ maxCounter) : number (.string (decimalInt n)) = some n.toNat := by
  obtain ⟨m, rfl⟩ := Int.eq_ofNat_of_zero_le h.1
  have hmax := h.2
  rw [decimalInt_natCast, number_decimal (by omega), Int.toNat_natCast]

theorem sequence_proposalOf {db : Database} (h : Rows db) {path : Text} {r : EntryRow}
    (hr : db.entries.find? path = some r) : number (proposalOf r).sequence = some r.sequence.toNat := by
  have hbounds := h.bounds hr
  have hlimit := h.limit
  have hsequence : (proposalOf r).sequence = .string (decimalInt r.sequence) := by
    rw [proposalOf]
    dsimp only
    split <;> rfl
  rw [hsequence, number_decimalInt (by omega)]

theorem path_proposalOf (r : EntryRow) : (proposalOf r).path = r.data.path := by
  rw [proposalOf]
  dsimp only
  split <;> rfl

theorem base_proposalOf (r : EntryRow) : (proposalOf r).baseRevision.defined := by
  rw [proposalOf]
  dsimp only
  split
  · assumption
  · rfl

theorem plain_proposalOf {r : EntryRow} (h : plainEntry r.data) : plainEntry (proposalOf r) := by
  rw [proposalOf]
  dsimp only
  split <;> exact h

/-- The proposals of sorted rows climb from the sequence below them. -/
theorem climbs_proposals {db : Database} (h : Rows db) {through : Int} (rows : List EntryRow) :
    ∀ {last : Int}, Sorted last rows → (∀ r ∈ rows, (∃ path, db.entries.find? path = some r) ∧ r.sequence ≤ through) →
      Climbs through last ((proposals rows).map proposalOf) := by
  induction rows with
  | nil => exact fun _ _ => trivial
  | cons r rows ih =>
    intro last hsorted hrows
    obtain ⟨hlow, hrest⟩ := List.pairwise_cons.mp hsorted
    obtain ⟨⟨path, hpath⟩, hle⟩ := hrows r List.mem_cons_self
    have hbounds := h.bounds hpath
    have hsub : ∀ s ∈ rows, (∃ path, db.entries.find? path = some s) ∧ s.sequence ≤ through :=
      fun s hs => hrows s (List.mem_cons_of_mem r hs)
    have hr : last < r.sequence := hlow _ (by simp)
    rw [proposals, List.filter_cons]
    split
    · rename_i hpending
      refine ⟨r.sequence.toNat, sequence_proposalOf h hpath, by omega, by omega, ?_⟩
      have htail := @ih r.sequence hrest hsub
      rwa [Int.toNat_of_nonneg hbounds.1]
    · refine ih ?_ hsub
      refine List.pairwise_cons.mpr ⟨fun n hn => hlow n (by simp [hn]), (List.pairwise_cons.mp hrest).2⟩

/-- One more page. -/
theorem Gathered.page [StoreLayout] {paths : List Text} {pushed through cursor next : Int} {db : Database}
    {outgoing : List Entry} {front : List EntryRow} (h : Gathered paths pushed through cursor db outgoing) (hrows : Rows db)
    (hfront : front <+: rowsBetween db cursor through) (hpushed : pushed ≤ cursor)
    (hnext : cursor ≤ next) (hall : ∀ r ∈ front, r.sequence ≤ next)
    (hpending : ∀ path r, db.entries.find? path = some r → ¬r.data.revision.defined → pushed < r.sequence →
      r.sequence ≤ through → path ∈ paths ∧ validRecord (proposalOf r)) :
    Gathered paths pushed through next db (outgoing ++ (proposals front).map proposalOf) := by
  have hmem : ∀ r ∈ front, (∃ path, db.entries.find? path = some r) ∧ cursor < r.sequence ∧ r.sequence ≤ through :=
    fun r hr => mem_rowsBetween (hfront.subset hr)
  have hnew : ∀ e ∈ (proposals front).map proposalOf, ∃ r ∈ front, ∃ path, db.entries.find? path = some r ∧
      ¬r.data.revision.defined ∧ e = proposalOf r ∧ e.path.text = path ∧ cursor < r.sequence ∧ r.sequence ≤ through := by
    intro e he
    obtain ⟨r, hr, rfl⟩ := List.mem_map.mp he
    obtain ⟨hr, hdefined⟩ := List.mem_filter.mp hr
    obtain ⟨⟨path, hpath⟩, hlow, hhigh⟩ := hmem r hr
    exact ⟨r, hr, path, hpath, by simpa using hdefined, rfl, by rw [path_proposalOf, hrows.keyed hpath], hlow, hhigh⟩
  have hsorted : Sorted cursor front := by
    have hpair := List.pairwise_cons.mp (sorted_rowsBetween hrows cursor through)
    refine List.pairwise_cons.mpr ⟨fun n hn => ?_, hpair.2.sublist (hfront.sublist.map _)⟩
    exact hpair.1 n ((hfront.sublist.map EntryRow.sequence).subset hn)
  refine ⟨?_, ?_, ?_, ?_, ?_, ?_⟩
  · refine h.climbs.append (climbs_proposals hrows front hsorted fun r hr => ⟨(hmem r hr).1, (hmem r hr).2.2⟩) hpushed h.below
  · intro e he n hn
    rcases List.mem_append.mp he with he | he
    · exact Int.le_trans (h.below e he n hn) hnext
    · obtain ⟨r, hr, path, hpath, -, rfl, -, -, -⟩ := hnew e he
      rw [sequence_proposalOf hrows hpath] at hn
      cases hn
      have hle := hall r hr
      have hbounds := hrows.bounds hpath
      omega
  · intro e he
    rcases List.mem_append.mp he with he | he
    · exact h.proper e he
    · obtain ⟨r, hr, path, hpath, hdefined, rfl, -, hlow, hhigh⟩ := hnew e he
      exact ⟨(hpending path r hpath hdefined (Int.lt_of_le_of_lt hpushed hlow) hhigh).2,
        plain_proposalOf (hrows.plain hpath hdefined), base_proposalOf r⟩
  · rw [List.map_append]
    refine List.nodup_append.mpr ⟨h.distinct, ?_, ?_⟩
    · rw [List.map_map]
      have hpaths : ((proposals front).map fun r => r.data.path.text).Nodup := by
        refine List.pairwise_map.mpr (List.Pairwise.imp_of_mem ?_
          ((List.pairwise_map.mp (List.pairwise_cons.mp hsorted).2).sublist List.filter_sublist))
        intro a b ha hb hlt hpath
        obtain ⟨⟨p, hp⟩, -⟩ := hmem a (List.mem_of_mem_filter ha)
        obtain ⟨⟨q, hq⟩, -⟩ := hmem b (List.mem_of_mem_filter hb)
        have hpq : p = q := by rw [← hrows.keyed hp, hpath, hrows.keyed hq]
        rw [hpq, hq] at hp
        cases hp
        exact Int.lt_irrefl _ hlt
      have hcomp : ((fun e : Entry => e.path.text) ∘ proposalOf) = fun r => r.data.path.text := by
        funext r
        simp [path_proposalOf]
      rw [hcomp]
      exact hpaths
    · intro p hp q hq hpq
      obtain ⟨e, he, rfl⟩ := List.mem_map.mp hp
      obtain ⟨e', he', rfl⟩ := List.mem_map.mp hq
      obtain ⟨r, hr, path, hpath, -, rfl, hkey, hlow, hhigh⟩ := hnew e' he'
      rw [← hkey, ← hpq] at hpath
      have hpast := h.past e he r hpath hhigh
      omega
  · intro e he
    rcases List.mem_append.mp he with he | he
    · exact h.known e he
    · obtain ⟨r, hr, path, hpath, hdefined, rfl, hkey, hlow, hhigh⟩ := hnew e he
      rw [hkey]
      exact (hpending path r hpath hdefined (Int.lt_of_le_of_lt hpushed hlow) hhigh).1
  · intro e he row hrow hle
    rcases List.mem_append.mp he with he | he
    · exact Int.le_trans (h.past e he row hrow hle) hnext
    · obtain ⟨r, hr, path, hpath, -, rfl, hkey, -, -⟩ := hnew e he
      rw [hkey, hpath] at hrow
      cases hrow
      exact hall _ hr

theorem changes_of_nil {w : World} (hvolume : w.volume.faults = []) (hdb : w.db.faults = []) (hmirror : isMirror w)
    {after through : Int} {page : Page Entry} (h : mirrorChanges w after through = .ok page) :
    changes after through w = .ok page w := by
  refine readSnapshot_of_nil hvolume hdb ?_
  rw [changesOf, if_pos hmirror]
  exact h

theorem Gathered.length_le [StoreLayout] {paths : List Text} {pushed through cursor : Int} {db : Database}
    {outgoing : List Entry} (h : Gathered paths pushed through cursor db outgoing) : outgoing.length ≤ paths.length := by
  have hsubset : (outgoing.map fun e => e.path.text) ⊆ paths := by
    intro path hpath
    obtain ⟨e, he, rfl⟩ := List.mem_map.mp hpath
    exact h.known e he
  have hle := (h.distinct.subperm hsubset).length_le
  rwa [List.length_map] at hle

section Walk

variable [StoreLayout] {w : World} {steps : Nat → List LocalStep} {paths : List Text} {pushed : Int}

/-- The pending entries in reach are valid records of these paths, whatever has happened. -/
def PendingWithin (w : World) (steps : Nat → List LocalStep) (paths : List Text) (pushed : Int) : Prop :=
  ∀ k path r, (edited steps w k).db.entries.find? path = some r → ¬r.data.revision.defined → pushed < r.sequence →
    r.sequence ≤ metaNumber w.db sequenceKey → path ∈ paths ∧ validRecord (proposalOf r)

/-- Every read of the mirror's own tables succeeds. -/
def Calm (w : World) (steps : Nat → List LocalStep) : Prop :=
  ∀ k, (edited steps w k).volume.faults = [] ∧ (edited steps w k).db.faults = []

/-- One page of the walk. -/
theorem collect_turn (hmirror : isMirror w) (hrows : Rows w.db) (hpushed : 0 ≤ pushed) (hcount : paths.length ≤ 250000)
    (hcalm : Calm w steps) (hpending : PendingWithin w steps paths pushed) {k : Nat} {cursor upper : Int}
    {outgoing : List Entry} (hcursor : pushed ≤ cursor) (hreach : cursor ≤ metaNumber w.db sequenceKey)
    (hupper : upper = metaNumber w.db sequenceKey ∧ upper ≠ 0 ∨ upper = 0 ∧ k = 0)
    (hgathered : Gathered paths pushed (metaNumber w.db sequenceKey) cursor (edited steps w k).db outgoing) :
    ∃ (es : List Entry) (next : Int) (more : Bool),
      Gathered paths pushed (metaNumber w.db sequenceKey) next (edited steps w k).db (outgoing ++ es) ∧
      next ≤ metaNumber w.db sequenceKey ∧ (more = true → cursor < next) ∧
      (more = false → next = metaNumber w.db sequenceKey) ∧
      ∀ fuel, collect steps (fuel + 1) k cursor upper outgoing (edited steps w k) =
        if more then collect steps fuel (k + 1) next (metaNumber w.db sequenceKey) (outgoing ++ es) (edited steps w (k + 1))
        else .ok (outgoing ++ es, metaNumber w.db sequenceKey) (edited steps w k) := by
  have hkept := mirrorKept_edited hmirror steps k
  obtain ⟨hrowsk, hevolves⟩ := hkept.db.2.2 hrows
  have hlimit := hrows.limit
  have ht : metaNumber w.db sequenceKey = if upper = 0 then metaNumber (edited steps w k).db sequenceKey else upper := by
    rcases hupper with ⟨hsame, hne⟩ | ⟨hzero, rfl⟩
    · rw [if_neg hne, hsame]
    · rw [if_pos hzero]
      rfl
  have hvalid : ∀ path r, (edited steps w k).db.entries.find? path = some r → ¬r.data.revision.defined →
      pushed < r.sequence → r.sequence ≤ metaNumber w.db sequenceKey → path ∈ paths ∧ validRecord (proposalOf r) :=
    hpending k
  obtain ⟨front, next, more, hfront, hpage, hnext, hall, hmore, hless⟩ :=
    mirrorChanges_ok hrowsk ht (Int.le_trans hpushed hcursor) hreach hevolves.sequence fun r hr hdefined => by
      obtain ⟨⟨path, hpath⟩, hlow, hhigh⟩ := mem_rowsBetween hr
      exact (validRecord_iff.mp (hvalid path r hpath hdefined (Int.lt_of_le_of_lt hcursor hlow) hhigh).2).fits
  have hforward : cursor ≤ next := by
    cases more with
    | true => exact Int.le_of_lt (hmore rfl)
    | false => rw [(hless rfl).1]; exact hreach
  have hnew := hgathered.page hrowsk hfront hcursor hforward hall hvalid
  refine ⟨(proposals front).map proposalOf, next, more, hnew, hnext, hmore, fun h => (hless h).1, fun fuel => ?_⟩
  have hchanges := changes_of_nil (hcalm k).1 (hcalm k).2 (hkept.isMirror.trans hmirror) hpage
  rw [collect, bind_of_ok hchanges]
  simp only [Value.text_string, Value.toBool_bool, Option.getD_some]
  rw [toLongLong_decimalInt (by omega), toLongLong_decimalInt (by omega)]
  simp only [Option.getD_some]
  rw [if_neg (Nat.not_lt.mpr (Nat.le_trans hnew.length_le hcount))]
  cases more <;> rfl

/-- The walk ends with everything gathered up to the sequence found first. -/
theorem collect_ok (hmirror : isMirror w) (hrows : Rows w.db) (hpushed : 0 ≤ pushed) (hcount : paths.length ≤ 250000)
    (hcalm : Calm w steps) (hpending : PendingWithin w steps paths pushed) (n : Nat) :
    ∀ (k : Nat) (cursor upper : Int) (outgoing : List Entry),
      (metaNumber w.db sequenceKey - cursor).toNat ≤ n → pushed ≤ cursor → cursor ≤ metaNumber w.db sequenceKey →
      (upper = metaNumber w.db sequenceKey ∧ upper ≠ 0 ∨ upper = 0 ∧ k = 0) →
      Gathered paths pushed (metaNumber w.db sequenceKey) cursor (edited steps w k).db outgoing →
      ∃ all K, Gathered paths pushed (metaNumber w.db sequenceKey) (metaNumber w.db sequenceKey) (edited steps w K).db all ∧
        ∀ fuel, n < fuel → collect steps fuel k cursor upper outgoing (edited steps w k) =
          .ok (all, metaNumber w.db sequenceKey) (edited steps w K) := by
  induction n with
  | zero =>
    intro k cursor upper outgoing hn hcursor hreach hupper hgathered
    obtain ⟨es, next, more, hnew, hnext, hmore, hless, hturn⟩ :=
      collect_turn hmirror hrows hpushed hcount hcalm hpending hcursor hreach hupper hgathered
    cases more with
    | true =>
      have hlt := hmore rfl
      omega
    | false =>
      rw [hless rfl] at hnew
      refine ⟨_, k, hnew, fun fuel hfuel => ?_⟩
      obtain ⟨fuel, rfl⟩ := Nat.exists_eq_succ_of_ne_zero (Nat.ne_of_gt hfuel)
      exact hturn fuel
  | succ n ih =>
    intro k cursor upper outgoing hn hcursor hreach hupper hgathered
    obtain ⟨es, next, more, hnew, hnext, hmore, hless, hturn⟩ :=
      collect_turn hmirror hrows hpushed hcount hcalm hpending hcursor hreach hupper hgathered
    cases more with
    | true =>
      have hlt := hmore rfl
      have hkept := mirrorKept_edited hmirror steps k
      have hevolves : Evolves (edited steps w k).db (edited steps w (k + 1)).db :=
        ((mirrorKept_runAll (hkept.isMirror.trans hmirror) (steps k)).db.2.2 (hkept.db.2.2 hrows).1).2
      obtain ⟨all, K, hall, hwalk⟩ := ih (k + 1) next (metaNumber w.db sequenceKey) (outgoing ++ es) (by omega) (by omega)
        hnext (Or.inl ⟨rfl, by omega⟩) (hnew.evolve hevolves (hkept.db.2.2 hrows).2.sequence)
      refine ⟨all, K, hall, fun fuel hfuel => ?_⟩
      obtain ⟨fuel, rfl⟩ := Nat.exists_eq_succ_of_ne_zero (Nat.ne_of_gt (Nat.zero_lt_of_lt hfuel))
      exact (hturn fuel).trans (hwalk fuel (by omega))
    | false =>
      rw [hless rfl] at hnew
      refine ⟨_, k, hnew, fun fuel hfuel => ?_⟩
      obtain ⟨fuel, rfl⟩ := Nat.exists_eq_succ_of_ne_zero (Nat.ne_of_gt (Nat.zero_lt_of_lt hfuel))
      exact hturn fuel

end Walk

end Replica

end SocietyHelper.Sync
