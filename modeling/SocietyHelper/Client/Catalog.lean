import SocietyHelper.Sync.Catalog

/-! # A client walks the catalog of its host

A client asks for page after page and keeps what it is shown as aliases. A host may
answer anything; a walk that ends has then shown every path at most once. A host of
this program may go on working in between; a walk that ends has then shown what
was listed when each of its pages was answered.
-/

namespace SocietyHelper.Client

open Library Sync Sync.Replica

/-- What a client shows of a file of its host. -/
structure Alias where
  key : Text
  section_ : Text
  relativePath : Text
  name : Text
  isImage : Bool
  size : Int
  modified : Option Int
  version : Text
  hash : Text
  informationAvailable : Bool
  deriving DecidableEq

/-- The part of a walk that has been done. -/
structure Catalog where
  revision : Text := []
  cursor : Text := []
  keys : List Text := []
  aliases : List Alias := []

/-- The first part of a path, and what follows it. -/
def sectionPart (path : Text) : Text := path.takeWhile (· ≠ '/')

def suffixOf (name : Text) : Text := lowered (name.reverse.takeWhile (· ≠ '.')).reverse

def imageSuffixes : List Text :=
  ["png", "jpg", "jpeg", "webp", "bmp", "gif", "tif", "tiff", "avif", "heic", "heif"].map text

def drivePath [layout : StoreLayout] (path : Text) (root : Bool) : Bool :=
  if path = [] then root
  else if 3500 < utf16Size path || path.contains '\\' || path.contains ':' || path.contains '\x00' then false
  else if (path.splitOn '/').any fun part =>
      part = [] || part = text "." || part = text ".." || 220 < utf8Size part ||
        (text ".society-").isPrefixOf part || (text ".iiwebserver-").isPrefixOf part || layout.controlFile part then false
  else layout.sections.any fun s => sectionPart path = s.key

def aliasOf (e : CatalogItem) : Alias :=
  let path := e.path.text
  let section_ := sectionPart path
  let name := namePart path
  { key := path, section_, relativePath := path.drop (section_.length + 1), name
    isImage := e.kind.text = file && imageSuffixes.contains (suffixOf name)
    size := (toLongLong e.size.text).getD 0, modified := toLongLong e.modified.text
    version := e.version.text, hash := e.hash.text
    informationAvailable := e.provider = .string CatalogItem.provided }

namespace Catalog

def maximum : Nat := 100000

def request (container : Text) (s : Catalog) : CatalogRequest where
  container := .string container
  cursor := if s.cursor = [] then .undefined else .string s.cursor
  revision := if s.cursor = [] then .undefined else .string s.revision

def validItem [StoreLayout] (keys : List Text) (e : CatalogItem) : Bool :=
  let path := e.path.text
  drivePath path false && path.contains '/' && !keys.contains path && (e.kind.text = file || e.kind.text = directory) &&
    (match toLongLong e.size.text with
      | some size => 0 ≤ size
      | none => false) && e.version.text ≠ []

/-- Directories are known by their paths only. -/
def acceptItems [StoreLayout] : List CatalogItem → Catalog → Except Text Catalog
  | [], s => .ok s
  | e :: es, s =>
    if ¬validItem s.keys e then .error (text "invalid_host_catalog_entry")
    else
      let s := { s with keys := s.keys ++ [e.path.text] }
      acceptItems es (if e.kind.text = directory then s else { s with aliases := s.aliases ++ [aliasOf e] })

/-- What a client makes of a page. -/
def accept [StoreLayout] (page : CatalogPage) (s : Catalog) : Except Text Catalog :=
  if ¬page.ok.toBool then
    .error (if page.error.isString then page.error.text else text "host_catalog_unavailable")
  else
    let revision := page.revision.text
    let cursor := page.nextCursor.text
    if revision = [] ∨ (s.revision ≠ [] ∧ revision ≠ s.revision) ∨ page.entries = none ∨ ¬page.nextCursor.isString ∨
        (cursor ≠ [] ∧ (¬drivePath cursor false ∨ octets cursor ≤ octets s.cursor)) then
      .error (text "invalid_host_catalog")
    else
      let entries := page.entries.getD []
      if 128 < entries.length ∨ maximum < s.keys.length + entries.length ∨ (cursor ≠ [] ∧ entries = []) then
        .error (text "host_catalog_limit")
      else (acceptItems entries s).map fun s => { s with revision, cursor }

/-! ## One page -/

section

variable [StoreLayout] {s t : Catalog} {items : List CatalogItem} {page : CatalogPage}

theorem validItem_iff {keys : List Text} {e : CatalogItem} :
    validItem keys e ↔ validItem [] e ∧ e.path.text ∉ keys := by
  simp only [validItem, Bool.and_eq_true, Bool.not_eq_true', List.contains_nil, ← Bool.not_eq_true, List.contains_iff_mem]
  tauto

/-- What accepted items add. -/
structure Added (items : List CatalogItem) (s t : Catalog) : Prop where
  keys : t.keys = s.keys ++ items.map fun e => e.path.text
  aliases : t.aliases = s.aliases ++ (items.filter fun e => e.kind.text ≠ directory).map aliasOf
  valid : ∀ e ∈ items, validItem [] e
  nodup : s.keys.Nodup → t.keys.Nodup

theorem acceptItems_added (h : acceptItems items s = .ok t) : Added items s t := by
  induction items generalizing s with
  | nil =>
    cases h
    exact ⟨by simp, by simp, List.forall_mem_nil _, fun hs => hs⟩
  | cons e es ih =>
    rw [acceptItems] at h
    split at h
    · cases h
    next hvalid =>
      obtain ⟨hsound, hfresh⟩ := validItem_iff.mp (not_not.mp hvalid)
      have hadded := ih h
      have hgrown : s.keys.Nodup → (s.keys ++ [e.path.text]).Nodup := fun hs =>
        List.nodup_append.mpr ⟨hs, List.nodup_singleton _, fun a ha b hb hab =>
          hfresh (List.mem_singleton.mp hb ▸ hab ▸ ha)⟩
      have hall : ∀ e' ∈ e :: es, validItem [] e' := List.forall_mem_cons.mpr ⟨hsound, hadded.valid⟩
      split at hadded
      next hdirectory =>
        exact ⟨by simpa using hadded.keys, by simpa [hdirectory] using hadded.aliases, hall,
          fun hs => hadded.nodup (hgrown hs)⟩
      next hfile =>
        exact ⟨by simpa using hadded.keys, by simpa [hfile] using hadded.aliases, hall,
          fun hs => hadded.nodup (hgrown hs)⟩

theorem acceptItems_of_valid (hvalid : ∀ e ∈ items, validItem [] e)
    (hnodup : (s.keys ++ items.map fun e => e.path.text).Nodup) : ∃ t, acceptItems items s = .ok t := by
  induction items generalizing s with
  | nil => exact ⟨s, rfl⟩
  | cons e es ih =>
    obtain ⟨hsound, hrest⟩ := List.forall_mem_cons.mp hvalid
    have hfresh : e.path.text ∉ s.keys := fun hmem =>
      (List.nodup_append.mp hnodup).2.2 _ hmem _ List.mem_cons_self rfl
    rw [acceptItems, if_neg (not_not.mpr (validItem_iff.mpr ⟨hsound, hfresh⟩))]
    refine ih hrest ?_
    split <;> simpa using hnodup

/-- What an accepted page was. -/
structure Accepted (page : CatalogPage) (s t : Catalog) : Prop where
  items : ∃ items, page.entries = some items ∧ Added items s t ∧ (page.nextCursor.text ≠ [] → items ≠ [])
  revision : t.revision = page.revision.text ∧ t.revision ≠ [] ∧ (s.revision ≠ [] → t.revision = s.revision)
  cursor : t.cursor = page.nextCursor.text
  limit : t.keys.length ≤ maximum

theorem accept_ok (h : s.accept page = .ok t) : Accepted page s t := by
  rw [accept] at h
  split at h
  · cases h
  dsimp only at h
  split at h
  · cases h
  next hpage =>
    split at h
    · cases h
    next hlimit =>
      simp only [not_or, not_and, not_lt] at hpage hlimit
      obtain ⟨hrevision, hsame, hentries, -, -⟩ := hpage
      obtain ⟨items, hitems⟩ := Option.ne_none_iff_exists'.mp hentries
      rw [hitems] at h hlimit
      cases haccept : acceptItems ((some items).getD []) s with
      | error e =>
        rw [haccept] at h
        cases h
      | ok u =>
        rw [haccept] at h
        cases h
        have hadded := acceptItems_added haccept
        refine ⟨⟨items, hitems, ⟨hadded.keys, hadded.aliases, hadded.valid, hadded.nodup⟩, hlimit.2.2⟩,
          ⟨rfl, hrevision, fun hs => not_not.mp (hsame hs)⟩, rfl, ?_⟩
        have hkeys : u.keys.length = s.keys.length + items.length := by
          rw [hadded.keys]
          simp
        exact hkeys.trans_le hlimit.2.1

/-! ## Any host -/

/-- The pages that a client has taken, whatever has sent them; it asks on as long as there is a cursor. -/
inductive Walked : List CatalogPage → Catalog → Prop
  | start : Walked [] {}
  | page {pages : List CatalogPage} {s t : Catalog} {page : CatalogPage} (h : Walked pages s)
      (hasked : pages = [] ∨ s.cursor ≠ []) (haccept : s.accept page = .ok t) : Walked (pages ++ [page]) t

/-- What a walk has collected. -/
structure Bounded (pages : List CatalogPage) (s : Catalog) : Prop where
  nodup : s.keys.Nodup
  limit : s.keys.length ≤ maximum
  length : pages.length ≤ s.keys.length + 1
  asking : s.cursor ≠ [] → pages.length ≤ s.keys.length
  revisions : ∀ page ∈ pages, page.revision.text = s.revision ∧ s.revision ≠ []
  aliases : (s.aliases.map Alias.key).Sublist s.keys
  valid : ∀ a ∈ s.aliases, drivePath a.key false ∧ '/' ∈ a.key ∧ 0 ≤ a.size ∧ a.version ≠ []

theorem valid_aliasOf {e : CatalogItem} (h : validItem [] e) :
    drivePath (aliasOf e).key false ∧ '/' ∈ (aliasOf e).key ∧ 0 ≤ (aliasOf e).size ∧ (aliasOf e).version ≠ [] := by
  simp only [validItem, Bool.and_eq_true, decide_eq_true_eq, List.contains_iff_mem] at h
  obtain ⟨⟨⟨⟨⟨hpath, hslash⟩, -⟩, -⟩, hsize⟩, hversion⟩ := h
  refine ⟨hpath, hslash, ?_, hversion⟩
  rw [aliasOf]
  cases hnumber : toLongLong e.size.text with
  | none => exact Int.le_refl 0
  | some size =>
    rw [hnumber] at hsize
    exact of_decide_eq_true hsize

/-- Whatever a host answers, a walk ends after so many pages, all of one revision, and shows no path twice. -/
theorem walked_bounded {pages : List CatalogPage} (h : Walked pages s) : Bounded pages s := by
  induction h with
  | start =>
    exact
      { nodup := List.nodup_nil, limit := Nat.zero_le _, length := Nat.zero_le _, asking := fun _ => Nat.zero_le _
        revisions := List.forall_mem_nil _, aliases := .slnil, valid := List.forall_mem_nil _ }
  | @page pages s t page _ hasked haccept ih =>
    have haccepted := accept_ok haccept
    obtain ⟨items, -, hadded, hmore⟩ := haccepted.items
    have hlength : t.keys.length = s.keys.length + items.length := by
      rw [hadded.keys]
      simp
    have hbefore : pages.length ≤ s.keys.length := by
      rcases hasked with rfl | hcursor
      · exact Nat.zero_le _
      · exact ih.asking hcursor
    refine ⟨hadded.nodup ih.nodup, haccepted.limit, ?_, fun hcursor => ?_, fun p hp => ?_, ?_, fun a ha => ?_⟩
    · rw [List.length_append, List.length_singleton, hlength]
      omega
    · have hitems := List.length_pos_iff.mpr (hmore (haccepted.cursor ▸ hcursor))
      rw [List.length_append, List.length_singleton, hlength]
      omega
    · obtain ⟨hrevision, hne, hsame⟩ := haccepted.revision
      rcases List.mem_append.mp hp with hp | hp
      · obtain ⟨hold, hsome⟩ := ih.revisions p hp
        exact ⟨hold.trans (hsame hsome).symm, hne⟩
      · rw [List.mem_singleton.mp hp]
        exact ⟨hrevision.symm, hne⟩
    · rw [hadded.aliases, hadded.keys, List.map_append, List.map_map]
      exact ih.aliases.append (List.filter_sublist.map _)
    · rw [hadded.aliases] at ha
      rcases List.mem_append.mp ha with ha | ha
      · exact ih.valid a ha
      · obtain ⟨e, he, rfl⟩ := List.mem_map.mp ha
        exact valid_aliasOf (hadded.valid e (List.mem_filter.mp he).1)

/-! ## A host that goes on working -/

/-- Pages of one host; between them it lives on. The second argument tells when they were answered. -/
inductive Walk (container : Text) (first : World) : List World → World → Catalog → Prop
  | start : Walk container first [] first {}
  | page {served : List World} {w v u : World} {s t : Catalog} {times : Path → Option Int64} {page : CatalogPage}
      (h : Walk container first served w s) (hasked : served = [] ∨ s.cursor ≠ [])
      (hlife : Relation.ReflTransGen Works w v) (hserve : catalog times (s.request container) v = .ok page u)
      (haccept : s.accept page = .ok t) : Walk container first (served ++ [v]) u t

end

/-- An alias without the time that a page may tell or not. -/
def still (a : Alias) : Alias := { a with modified := none }

/-- The aliases of the files among listed entries. -/
def aliasesOf (l : List (Text × Sync.Entry)) : List Alias :=
  (l.filter fun e => e.2.kind.text ≠ directory).map fun e => aliasOf (exported e.2 none)

/-- What has been listed up to a cursor; without a cursor the walk is done. -/
def upToCursor (cursor : Text) (l : List (Text × Sync.Entry)) : List (Text × Sync.Entry) :=
  if cursor = [] then l else Keyset.upTo byPath (octets cursor) l

structure Holds (s : Catalog) (l : List (Text × Sync.Entry)) : Prop where
  keys : s.keys = l.map Prod.fst
  aliases : s.aliases.map still = aliasesOf l

section

variable [StoreLayout] {s t : Catalog} {items : List CatalogItem} {page : CatalogPage}

omit [StoreLayout] in
theorem aliasesOf_append (l l' : List (Text × Sync.Entry)) : aliasesOf (l ++ l') = aliasesOf l ++ aliasesOf l' := by
  rw [aliasesOf, List.filter_append, List.map_append]
  rfl

omit [StoreLayout] in
/-- Items show the paths and the files of their entries. -/
theorem holds_items {front : List (Text × Sync.Entry)} (hpath : ∀ e ∈ front, e.2.path.text = e.1)
    (h : List.Forall₂ (fun e i => ∃ modified, i = exported e.2 modified) front items) :
    (items.map fun i => i.path.text) = front.map Prod.fst ∧
      ((items.filter fun i => i.kind.text ≠ directory).map aliasOf).map still = aliasesOf front := by
  induction h with
  | nil => exact ⟨rfl, rfl⟩
  | @cons e i front items hshows _ ih =>
    obtain ⟨modified, rfl⟩ := hshows
    obtain ⟨hpaths, haliases⟩ := ih fun e' he' => hpath e' (List.mem_cons_of_mem _ he')
    have hkind : (exported e.2 modified).kind = e.2.kind := rfl
    have hstill : still (aliasOf (exported e.2 modified)) = aliasOf (exported e.2 none) := rfl
    refine ⟨?_, ?_⟩
    · rw [List.map_cons, List.map_cons, hpaths, ← hpath e List.mem_cons_self]
      rfl
    · rw [aliasesOf, List.filter_cons, List.filter_cons, hkind]
      split
      · rw [List.map_cons, List.map_cons, List.map_cons, hstill, haliases]
        rfl
      · exact haliases

omit [StoreLayout] in
theorem request_cursor (container : Text) (s : Catalog) : (s.request container).cursor.text = s.cursor := by
  rw [request]
  dsimp only
  split
  next h => exact h.symm
  next => rfl

/-- A page of a host takes the walk from one cursor to the next. -/
theorem holds_accept {w : World} (hw : Governs w) {container : Text} (hanswered : Answered w (s.request container) page)
    (haccepted : Accepted page s t) (h : Holds s (Keyset.upTo byPath (octets s.cursor) (listing w.db))) :
    Holds t (upToCursor t.cursor (listing w.db)) := by
  obtain ⟨front, rest, items, next, hbehind, hitems, hnext, -, hshows, hcursor⟩ := hanswered.shows
  obtain ⟨items', hitems', hadded, -⟩ := haccepted.items
  rw [hitems] at hitems'
  cases hitems'
  rw [request_cursor] at hbehind
  have hfront : ∀ e ∈ front, e ∈ listing w.db := fun e he =>
    (Keyset.mem_behind.mp (hbehind ▸ List.mem_append_left rest he)).1
  obtain ⟨hpaths, haliases⟩ := holds_items (fun e he => (hw.sent (hfront e he)).path) hshows
  have hnow : upToCursor t.cursor (listing w.db) = Keyset.upTo byPath (octets s.cursor) (listing w.db) ++ front := by
    rw [haccepted.cursor, hnext, Value.text_string, upToCursor]
    rcases hcursor with ⟨rfl, rfl⟩ | ⟨hne, last, hlast, rfl⟩
    · rw [List.append_nil] at hbehind
      rw [if_pos rfl, ← hbehind, Keyset.upTo_append_behind (listing_ascends w.db)]
    · rw [if_neg hne]
      exact Keyset.upTo_getLast (listing_ascends w.db) hbehind.symm hlast
  rw [hnow]
  constructor
  · rw [hadded.keys, h.keys, hpaths, List.map_append]
  · rw [hadded.aliases, List.map_append, h.aliases, haliases, aliasesOf_append]

/-- What a walk knows of its host: every page was answered from one listing. -/
structure Followed (served : List World) (w : World) (s : Catalog) : Prop where
  governs : Governs w
  start : served = [] → s = {}
  cursor : s.cursor ≠ [] → physical s.cursor ≠ []
  pages : ∀ v ∈ served, Governs v ∧ journal v = journal w ∧ v.db.revisions.rows <+: w.db.revisions.rows ∧
    s.revision = ((journal v).state v.db).sequence ∧ Holds s (upToCursor s.cursor (listing v.db))

/-- The journal of an authority is told by its sequence. -/
theorem rows_of_sequence {v w : World} (hv : Governs v) (hw : Governs w)
    (hgrown : v.db.revisions.rows <+: w.db.revisions.rows)
    (h : ((journal v).state v.db).sequence = ((journal w).state w.db).sequence) :
    w.db.revisions.rows = v.db.revisions.rows := by
  have hlength : v.db.revisions.rows.length = w.db.revisions.rows.length := by
    rw [NamespaceJournal.state, NamespaceJournal.state, hv.indexed.chain.headSequence_eq, hw.indexed.chain.headSequence_eq] at h
    exact decimal_injective h
  exact (hgrown.eq_of_length hlength).symm

omit [StoreLayout] in
theorem request_revision (container : Text) {s : Catalog} (h : s.cursor ≠ []) :
    (s.request container).revision = .string s.revision := if_neg h

/-- At the sequence of its walk a host lists what it has listed all along. -/
theorem Followed.ahead {served : List World} {w v : World} (h : Followed served w s) (hasked : served = [] ∨ s.cursor ≠ [])
    (hlife : Relation.ReflTransGen Works w v) (hpinned : s.cursor ≠ [] → s.revision = ((journal v).state v.db).sequence) :
    (∀ x ∈ served, x.db.revisions.rows = v.db.revisions.rows ∧ listing x.db = listing v.db) ∧
      Holds s (Keyset.upTo byPath (octets s.cursor) (listing v.db)) := by
  obtain ⟨hv, hjournal, hgrown⟩ := h.governs.works hlife
  have hsame : ∀ x ∈ served, x.db.revisions.rows = v.db.revisions.rows ∧ listing x.db = listing v.db := fun x hx => by
    obtain ⟨hx', hjx, hrows, hrevision, -⟩ := h.pages x hx
    have hcursor : s.cursor ≠ [] := hasked.resolve_left (List.ne_nil_of_mem hx)
    have hequal := (rows_of_sequence hx' hv (hrows.trans hgrown) (hrevision.symm.trans (hpinned hcursor))).symm
    exact ⟨hequal, listing_of_revisions hv.indexed (hjx.trans hjournal.symm ▸ hx'.indexed) hequal⟩
  refine ⟨hsame, ?_⟩
  rcases List.eq_nil_or_concat served with hnil | ⟨earlier, x, hconcat⟩
  · have hnone : Keyset.upTo byPath (octets []) (listing v.db) = [] := Keyset.upTo_of_lt fun e he =>
      octets_nil_lt fun hpath => (hv.sent he).native (by rw [hpath]; rfl)
    rw [h.start hnil]
    exact ⟨by rw [hnone]; rfl, by rw [hnone]; rfl⟩
  · have hx : x ∈ served := by
      rw [hconcat]
      simp
    have hcursor : s.cursor ≠ [] := hasked.resolve_left (List.ne_nil_of_mem hx)
    have hholds := (h.pages x hx).2.2.2.2
    rwa [upToCursor, if_neg hcursor, (hsame x hx).2] at hholds

theorem followed {container : Text} {first w : World} {served : List World} (hfirst : Governs first)
    (h : Walk container first served w s) : Followed served w s := by
  induction h with
  | start => exact ⟨hfirst, fun _ => rfl, fun h => absurd rfl h, List.forall_mem_nil _⟩
  | @page served w v u s t times page _ hasked hlife hserve haccept ih =>
    obtain ⟨hv, hjournal, hgrown⟩ := ih.governs.works hlife
    obtain ⟨hanswered, volume, rfl⟩ := catalog_ok hserve
    have haccepted := accept_ok haccept
    have hpinned : s.cursor ≠ [] → s.revision = ((journal v).state v.db).sequence := fun hcursor => by
      have hasked' := hanswered.pinned (by rwa [request_cursor])
      rwa [request_revision container hcursor] at hasked'
    obtain ⟨hsame, hbefore⟩ := ih.ahead hasked hlife hpinned
    have hholds := holds_accept hv hanswered haccepted hbefore
    have hrevision : t.revision = ((journal v).state v.db).sequence := by
      rw [haccepted.revision.1, hanswered.revision]
      rfl
    refine ⟨⟨hv.authority, hv.indexed⟩, fun hnil => absurd hnil (by simp), fun hcursor => ?_, fun x hx => ?_⟩
    · obtain ⟨front, rest, items, next, hbehind, -, hnext, -, -, hlast⟩ := hanswered.shows
      rw [haccepted.cursor, hnext, Value.text_string] at hcursor ⊢
      obtain ⟨-, last, hget, rfl⟩ := hlast.resolve_left fun hnil => hcursor hnil.1
      exact (hv.sent (Keyset.mem_behind.mp (hbehind ▸ List.mem_append_left rest (List.mem_of_getLast? hget))).1).native
    · rcases List.mem_append.mp hx with hx | hx
      · obtain ⟨hx', hjx, hrows, -⟩ := ih.pages x hx
        refine ⟨hx', hjx.trans hjournal.symm, hrows.trans hgrown, ?_, (hsame x hx).2 ▸ hholds⟩
        rw [hrevision, NamespaceJournal.state, NamespaceJournal.state, (hsame x hx).1]
      · rw [List.mem_singleton.mp hx]
        exact ⟨hv, rfl, List.prefix_rfl, hrevision, hholds⟩

/-- A client that has come to the end of a walk shows, path by path in the order of their bytes, what the host listed
when the first page was answered, and when the last one was, however the host went on in between. -/
theorem catalog_complete {container : Text} {first w : World} {served : List World} (hfirst : Governs first)
    (h : Walk container first served w s) (hdone : s.cursor = []) (v : World) (hv : v ∈ served) :
    s.keys = (listing v.db).map Prod.fst ∧ s.aliases.map still = aliasesOf (listing v.db) ∧
      ∀ path e, (path, e) ∈ listing v.db ↔ NamespaceJournal.object v.db path = some e ∧ shown path e := by
  obtain ⟨hgoverns, -, -, -, hholds⟩ := (followed hfirst h).pages v hv
  rw [hdone, upToCursor, if_pos rfl] at hholds
  refine ⟨hholds.keys, hholds.aliases, fun path e => ?_⟩
  rw [mem_listing, hgoverns.indexed.entries]

/-! ## Paths that a host shows -/

omit [StoreLayout] in
theorem head?_splitOn (path : Text) : (path.splitOn '/').head? = some (sectionPart path) := by
  induction path with
  | nil => rfl
  | cons c path ih =>
    rw [List.splitOn_cons_eq_if_modifyHead, sectionPart]
    split
    next h => rw [List.takeWhile_cons_of_neg (by simpa using h)]; rfl
    next h =>
      rw [List.takeWhile_cons_of_pos (by simpa using h), List.head?_modifyHead, ih]
      rfl

theorem drivePath_of_physical {path : Text} (h : physical path ≠ []) (hplain : providerControlPath path = false) :
    drivePath path false ∧ '/' ∈ path := by
  obtain ⟨s, tail, hs, hsplit, htail, -, hall⟩ := physical_cases h
  obtain ⟨hsize, hback, hcolon, hnull⟩ := accepted_of_physical h
  have hslash : '/' ∈ path := by
    rw [tail_subset hsplit htail]
    simp
  refine ⟨?_, hslash⟩
  have hsection : sectionPart path = s.key := by
    have hhead := head?_splitOn path
    rw [hsplit] at hhead
    exact (Option.some.inj hhead).symm
  rw [drivePath, if_neg (List.ne_nil_of_mem hslash), if_neg (by simp [hsize, hback, hcolon, hnull]), if_neg ?_]
  · exact List.any_eq_true.mpr ⟨s, hs, decide_eq_true hsection⟩
  · rw [Bool.not_eq_true, List.any_eq_false]
    intro part hpart
    have hsupported := hall part hpart
    have hfree := List.any_eq_false.mp hplain part hpart
    simp only [supportedComponent, controlPrefix, Bool.and_eq_true, decide_eq_true_eq, Bool.not_eq_true', Bool.or_eq_false_iff]
      at hsupported
    obtain ⟨⟨⟨⟨⟨hne, hdot⟩, hdots⟩, hshort⟩, hcontrol, hweb⟩, -⟩ := hsupported
    simp [hne, hdot, hdots, hshort, hcontrol, hweb, hfree]

theorem validItem_of_sent {e : Text × Sync.Entry} (h : Sent e) (modified : Option Int64) :
    validItem [] (exported e.2 modified) := by
  have hmembers : (exported e.2 modified).path = e.2.path ∧ (exported e.2 modified).kind = e.2.kind ∧
      (exported e.2 modified).size = e.2.size ∧ (exported e.2 modified).version = e.2.version := ⟨rfl, rfl, rfl, rfl⟩
  obtain ⟨hpath, hslash⟩ := drivePath_of_physical h.native h.plain
  obtain ⟨n, hn⟩ := h.size
  have hsize : ∃ m : Int, toLongLong e.2.size.text = some m ∧ 0 ≤ m := by
    rw [number] at hn
    split at hn
    next m hm =>
      split at hn
      next hbounds => exact ⟨m, hm, hbounds.1⟩
      next => cases hn
    next => cases hn
  obtain ⟨m, hm, hpositive⟩ := hsize
  rw [validItem, hmembers.1, hmembers.2.1, hmembers.2.2.1, hmembers.2.2.2, hm, h.path]
  simp [hpath, hslash, h.kind, hpositive, h.version]

theorem valid_items {front : List (Text × Sync.Entry)} (hsent : ∀ e ∈ front, Sent e)
    (h : List.Forall₂ (fun e i => ∃ modified, i = exported e.2 modified) front items) : ∀ i ∈ items, validItem [] i := by
  induction h with
  | nil => exact List.forall_mem_nil _
  | cons hshows _ ih =>
    obtain ⟨modified, rfl⟩ := hshows
    obtain ⟨hhead, htail⟩ := List.forall_mem_cons.mp hsent
    intro i hi
    rcases List.mem_cons.mp hi with rfl | hi
    · exact validItem_of_sent hhead modified
    · exact ih htail i hi

/-- Whatever a host answers to the next question of a walk, the client takes it if there is room. -/
theorem accept_of_answered {w : World} (hw : Governs w) {container : Text} (hanswered : Answered w (s.request container) page)
    (hrevision : s.revision ≠ [] → ((journal w).state w.db).sequence = s.revision)
    (h : s.keys = (Keyset.upTo byPath (octets s.cursor) (listing w.db)).map Prod.fst)
    (hlimit : s.keys.length + (page.entries.getD []).length ≤ maximum) : ∃ t, s.accept page = .ok t := by
  obtain ⟨front, rest, items, next, hbehind, hitems, hnext, hcount, hshows, hcursor⟩ := hanswered.shows
  rw [request_cursor] at hbehind
  have hmem : ∀ e ∈ front, e ∈ Keyset.behind byPath (octets s.cursor) (listing w.db) := fun e he =>
    hbehind ▸ List.mem_append_left rest he
  have hfront : ∀ e ∈ front, Sent e := fun e he => hw.sent (Keyset.mem_behind.mp (hmem e he)).1
  have hpaths := (holds_items (fun e he => (hfront e he).path) hshows).1
  have hnodup : (s.keys ++ items.map fun i => i.path.text).Nodup := by
    have hcut := Keyset.upTo_append_behind (listing_ascends w.db) (octets s.cursor)
    rw [hbehind, ← List.append_assoc] at hcut
    have hascends : Keyset.Ascends byPath ((Keyset.upTo byPath (octets s.cursor) (listing w.db) ++ front) ++ rest) :=
      hcut.symm ▸ listing_ascends w.db
    have hdistinct := Keyset.Ascends.nodup (List.pairwise_append.mp hascends).1
    rw [h, hpaths, ← List.map_append]
    exact List.Nodup.of_map octets (by rw [List.map_map]; exact hdistinct)
  obtain ⟨t, ht⟩ := acceptItems_of_valid (valid_items hfront hshows) hnodup
  rw [hitems, Option.getD_some] at hlimit
  have hsequence : ((journal w).state w.db).sequence ≠ [] := by
    rw [NamespaceJournal.state, hw.indexed.chain.headSequence_eq]
    exact decimal_ne_nil _
  refine ⟨{ t with revision := page.revision.text, cursor := page.nextCursor.text }, ?_⟩
  rw [accept, if_neg (not_not.mpr hanswered.ok)]
  dsimp only
  rw [if_neg ?_, if_neg ?_, hitems, Option.getD_some, ht]
  · rfl
  · rw [hitems, Option.getD_some, hnext]
    rintro (hmany | hmany | ⟨hne, hnone⟩)
    · exact absurd hcount (Nat.not_le.mpr hmany)
    · exact absurd hlimit (Nat.not_le.mpr hmany)
    · rcases hcursor with ⟨hnil, -⟩ | ⟨-, last, hlast, -⟩
      · exact hne hnil
      · rw [hnone, List.forall₂_nil_right_iff] at hshows
        rw [hshows] at hlast
        cases hlast
  · rw [hanswered.revision, hitems, hnext]
    rintro (hempty | ⟨hne, hother⟩ | hnone | hstring | ⟨hne, hbad⟩)
    · exact hsequence hempty
    · exact hother (hrevision hne)
    · cases hnone
    · exact hstring rfl
    · rcases hcursor with ⟨hnil, -⟩ | ⟨-, last, hlast, heq⟩
      · exact hne hnil
      · have hin := List.mem_of_getLast? hlast
        rw [Value.text_string, heq] at hbad
        rcases hbad with hbad | hbad
        · exact hbad (drivePath_of_physical (hfront last hin).native (hfront last hin).plain).1
        · have hlt := (Keyset.mem_behind.mp (hmem last hin)).2
          exact absurd hlt (not_lt.mpr hbad)

theorem container_walk {container : Text} {first w : World} {served : List World} (hfirst : Governs first)
    (h : Walk container first served w s) : w.container = first.container := by
  induction h with
  | start => rfl
  | page h _ hlife hserve _ ih =>
    obtain ⟨-, hjournal, -⟩ := (followed hfirst h).governs.works hlife
    obtain ⟨-, volume, rfl⟩ := catalog_ok hserve
    exact (congrArg NamespaceJournal.space hjournal).trans ih

/-- The next question of a walk is answered with a page that the client takes if there is room, or it is declined
because the host cannot be reached or locked, or because its journal has grown since the pages before. -/
theorem catalog_accepted {container : Text} {first w v : World} {served : List World} (hfirst : Governs first)
    (hcontainer : container = first.container) (h : Walk container first served w s)
    (hasked : served = [] ∨ s.cursor ≠ []) (hlife : Relation.ReflTransGen Works w v) (times : Path → Option Int64) :
    (∃ page u, catalog times (s.request container) v = .ok page u ∧
      (s.keys.length + (page.entries.getD []).length ≤ maximum → ∃ t, s.accept page = .ok t)) ∨
    ∃ e u, catalog times (s.request container) v = .error e u ∧
      (e = text "container_unavailable_or_replaced" ∨ e = text "sync_store_busy" ∨
        (e = text "drive_snapshot_changed" ∧ ∃ x ∈ served, x.db.revisions.rows ≠ v.db.revisions.rows)) := by
  have hfollowed := followed hfirst h
  obtain ⟨hv, hjournal, -⟩ := hfollowed.governs.works hlife
  cases hcatalog : catalog times (s.request container) v with
  | ok page u =>
    obtain ⟨hanswered, -⟩ := catalog_ok hcatalog
    have hpinned : s.cursor ≠ [] → s.revision = ((journal v).state v.db).sequence := fun hcursor => by
      have hasked' := hanswered.pinned (by rwa [request_cursor])
      rwa [request_revision container hcursor] at hasked'
    refine .inl ⟨page, u, rfl, accept_of_answered hv hanswered (fun hrevision => ?_) (hfollowed.ahead hasked hlife hpinned).2.keys⟩
    rcases hasked with hnil | hcursor
    · rw [hfollowed.start hnil] at hrevision
      exact absurd rfl hrevision
    · exact (hpinned hcursor).symm
  | error e u =>
    refine .inr ⟨e, u, rfl, ?_⟩
    cases catalog_error hv hcatalog with
    | unavailable => exact .inl rfl
    | busy => exact .inr (.inl rfl)
    | mirror hmirror =>
      rw [hv.authority] at hmirror
      cases hmirror
    | container hother =>
      have hsame : v.container = w.container := congrArg NamespaceJournal.space hjournal
      rw [hcontainer, ← container_walk hfirst h, ← hsame] at hother
      exact absurd rfl hother
    | cursor hcursor =>
      rw [request_cursor] at hcursor
      rcases hcursor with ⟨hdefined, hstring⟩ | ⟨hne, hnative⟩
      · rw [request] at hdefined hstring
        dsimp only at hdefined hstring
        split at hstring
        next hnil =>
          rw [if_pos hnil] at hdefined
          cases hdefined
        next => exact absurd rfl hstring
      · exact absurd hnative (hfollowed.cursor hne)
    | changed hchanged =>
      obtain ⟨hgiven, hother⟩ := hchanged
      have hcursor : s.cursor ≠ [] := fun hnil => by
        rw [request_cursor, request] at hgiven
        dsimp only at hgiven
        rw [if_pos hnil] at hgiven
        rcases hgiven with hgiven | hgiven
        · exact hgiven hnil
        · cases hgiven
      rcases List.eq_nil_or_concat served with hnil | ⟨earlier, x, hconcat⟩
      · rw [hfollowed.start hnil] at hcursor
        exact absurd rfl hcursor
      · have hx : x ∈ served := by
          rw [hconcat]
          simp
        refine .inr (.inr ⟨rfl, x, hx, fun hsame => hother ?_⟩)
        obtain ⟨-, hjx, -, hrevision, -⟩ := hfollowed.pages x hx
        rw [request_revision container hcursor, Value.text_string, hrevision, NamespaceJournal.state, NamespaceJournal.state,
          hsame]

/-- The pages of a host are pages like any other. -/
theorem walked_walk {container : Text} {first w : World} {served : List World} (h : Walk container first served w s) :
    ∃ pages, Walked pages s ∧ pages.length = served.length := by
  induction h with
  | start => exact ⟨[], .start, rfl⟩
  | @page served w v u s t times page _ hasked _ _ haccept ih =>
    obtain ⟨pages, hpages, hlength⟩ := ih
    refine ⟨pages ++ [page], .page hpages (hasked.imp_left fun hnil => ?_) haccept, by simp [hlength]⟩
    rw [hnil] at hlength
    exact List.eq_nil_of_length_eq_zero hlength

/-! ## A walk of one page -/

/-- What a client has taken after its first question, if it has. -/
def firstPage (container : Text) (v : World) : Option Catalog :=
  match catalog (fun _ => none) (({} : Catalog).request container) v with
  | .ok page _ => (accept page {}).toOption
  | .error _ _ => none

theorem walk_firstPage {container : Text} {first v : World} (hlife : Relation.ReflTransGen Works first v)
    (h : firstPage container v = some t) : ∃ u, Walk container first [v] u t := by
  rw [firstPage] at h
  split at h
  next page u hserve =>
    refine ⟨u, .page .start (.inl rfl) hlife hserve ?_⟩
    cases hresult : accept page {} with
    | ok t' =>
      rw [hresult] at h
      exact congrArg _ (Option.some.inj h)
    | error e =>
      rw [hresult] at h
      cases h
  next => cases h

end

def plantedWorld : World := @Call.run plainLayout planting openedAuthority

theorem plantedWorld_works : Relation.ReflTransGen (@Works plainLayout) openedAuthority plantedWorld :=
  .single (@Works.call plainLayout planting openedAuthority)

theorem governs_openedAuthority : @Governs plainLayout openedAuthority := @governs_of_empty plainLayout _ rfl rfl rfl

theorem firstPage_planted : ((@firstPage plainLayout openedAuthority.container plantedWorld).map fun t =>
    (t.keys, t.cursor)) = some ([text "files/notes"], []) := by decide +kernel

theorem walk_planted : ∃ t u, @Walk plainLayout openedAuthority.container openedAuthority [plantedWorld] u t ∧
    t.keys = [text "files/notes"] ∧ t.cursor = [] := by
  obtain ⟨t, ht, hpair⟩ := Option.map_eq_some_iff.mp firstPage_planted
  obtain ⟨hkeys, hcursor⟩ := Prod.mk.inj hpair
  obtain ⟨u, hwalk⟩ := @walk_firstPage plainLayout _ _ _ _ plantedWorld_works ht
  exact ⟨t, u, hwalk, hkeys, hcursor⟩

theorem catalog_complete_planted : (@listing plainLayout plantedWorld.db).map Prod.fst = [text "files/notes"] := by
  obtain ⟨t, u, hwalk, hkeys, hcursor⟩ := walk_planted
  have hcomplete := @catalog_complete plainLayout _ _ _ _ _ governs_openedAuthority hwalk hcursor plantedWorld
    (List.mem_singleton_self _)
  rw [← hcomplete.1, hkeys]

theorem walked_bounded_planted : ∃ pages s, @Walked plainLayout pages s ∧ s.keys = [text "files/notes"] ∧
    @Bounded plainLayout pages s := by
  obtain ⟨t, u, hwalk, hkeys, -⟩ := walk_planted
  obtain ⟨pages, hpages, -⟩ := @walked_walk plainLayout _ _ _ _ _ hwalk
  exact ⟨pages, t, hpages, hkeys, @walked_bounded plainLayout _ _ hpages⟩

theorem catalog_accepted_planted :
    (∃ page u, @catalog plainLayout (fun _ => none) (({} : Catalog).request openedAuthority.container) plantedWorld = .ok page u ∧
      (([] : List Text).length + (page.entries.getD []).length ≤ maximum → ∃ t, @Catalog.accept plainLayout page {} = .ok t)) ∨
    ∃ e u, @catalog plainLayout (fun _ => none) (({} : Catalog).request openedAuthority.container) plantedWorld = .error e u ∧
      (e = text "container_unavailable_or_replaced" ∨ e = text "sync_store_busy" ∨
        (e = text "drive_snapshot_changed" ∧ ∃ x ∈ ([] : List World), x.db.revisions.rows ≠ plantedWorld.db.revisions.rows)) :=
  @catalog_accepted plainLayout _ _ _ _ _ _ governs_openedAuthority rfl (@Walk.start plainLayout _ _) (.inl rfl) plantedWorld_works _

end Catalog

end SocietyHelper.Client
