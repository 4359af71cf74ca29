import Cs252.Http.Delivery
import Cs252.Http.DocumentRoot
import Cs252.Http.Page

/-!
# Cs252.Http.DirectoryLinks

Where the links of the page of a directory lead.

`handle_directory` names the entries after the fourth part of the path of the
directory, and `parse_respond` looks a name up in `htdocs`. The two agree for the
directories in `htdocs` itself. A directory above them has no fourth part, and
below them its links lead up to where the fourth part is.
-/

namespace Cs252.Http

variable {host : Host} {request : HttpRequest} {names : List CString} {entries : List Entry}
  {path sub name : CString}

/-! ### Paths -/

/-- A name in a directory. -/
def IsName (name : CString) : Prop := name.bytes ≠ [] ∧ 47 ∉ name.bytes

instance (name : CString) : Decidable (IsName name) := inferInstanceAs (Decidable (_ ∧ _))

/-- The path of a directory under the document root. -/
def pathOf (names : List CString) : CString :=
  names.foldl (fun path name => path ++ .lit "/" ++ name) documentRoot

theorem tokens_slash (path name : CString) (hname : IsName name) :
    (path ++ .lit "/" ++ name).tokens 47 = path.tokens 47 ++ [name] := by
  rw [CString.tokens_append (t := path) (r := name), CString.tokens_word hname.2 hname.1]
  exact List.append_assoc _ _ _

theorem tokens_foldl (hnames : ∀ name ∈ names, IsName name) :
    (names.foldl (fun path name => path ++ .lit "/" ++ name) path).tokens 47 =
      path.tokens 47 ++ names := by
  induction names generalizing path with
  | nil => exact (List.append_nil _).symm
  | cons name names ih =>
    rw [List.foldl_cons, ih fun name h => hnames name (List.mem_cons_of_mem _ h),
      tokens_slash _ _ (hnames name List.mem_cons_self), List.append_assoc, List.singleton_append]

/-- The parts of a path. -/
theorem tokens_pathOf (hnames : ∀ name ∈ names, IsName name) :
    (pathOf names).tokens 47 = .lit "." :: .lit "http-root-dir" :: names := by
  have hroot : documentRoot.tokens 47 = [.lit ".", .lit "http-root-dir"] := by decide
  rw [pathOf, tokens_foldl hnames, hroot]
  rfl

/-- What `handle_directory` says about an entry, after a name of the directory. -/
def entryInfo (sub : CString) (ent : Entry) : Info where
  name := sub ++ .lit "/" ++ ent.name
  date := mdTime ent.modified
  size := if ent.isDir then .lit "-" else decimal (asInt ent.size)
  isDir := ent.isDir

theorem fileInfo_eq_ok_iff {ent : Entry} {info : Info} :
    fileInfo path ent = .ok info ↔
      path.length < 256 ∧ ∃ sub, (path.tokens 47)[3]? = some sub ∧ info = entryInfo sub ent := by
  unfold fileInfo
  split
  · next hlong => exact ⟨nofun, fun h => absurd h.1 (Nat.not_lt.mpr hlong)⟩
  · next hshort =>
    cases (path.tokens 47)[3]? with
    | none => exact ⟨nofun, fun ⟨_, _, h, _⟩ => nomatch h⟩
    | some sub =>
      constructor
      · intro h
        exact ⟨Nat.lt_of_not_le hshort, sub, rfl, (Except.ok.inj h).symm⟩
      · intro h
        obtain ⟨-, _, hsub, rfl⟩ := h
        cases hsub
        rfl

/-! ### The page that is sent -/

/-- The order in which the entries are shown. -/
def shownInfos (host : Host) (infos : List Info) : List Info :=
  if 1 < infos.length then host.qsort compareNameAscending infos else infos

/-- The response with a text is spelled out if an `int` can count it. -/
theorem responseString_eq_ok_iff {text contentType : CString} {bytes : List UInt8}
    (hlt : text.length < 2 ^ 31) :
    responseString (fileResponse request contentType text.length text.memory) = .ok bytes ↔
      spaceNeeded request contentType text.bytes 0 < 2 ^ 31 ∧
        bytes = fileHead request contentType text.length ++ text.bytes ++ crlf.memory := by
  have hrest : 0 ∉ text.bytes → strlen [0] = some 0 := fun _ => rfl
  constructor
  · intro h
    obtain ⟨rfl, counted, hcounted, hle⟩ := respondFile_fits hlt h
    obtain ⟨counted', hcounted', -, hspace⟩ :=
      bodyLength_content request contentType hrest
    cases hcounted.symm.trans hcounted'
    refine ⟨?_, by rw [CString.memory, CString.length, List.take_left]⟩
    rw [CString.length] at hle
    rw [← hspace] at hle
    have := lt_of_le_asInt (by unfold spaceNeeded; split <;> omega) hle
    omega
  · intro h
    obtain ⟨hfits, rfl⟩ := h
    exact responseString_fileResponse hrest hlt hfits

/-- What is sent of a string is the string. -/
theorem socketWriteString_memory (s : CString) : socketWriteString s.memory = s.bytes :=
  CString.ofMemory_terminated s.noNul []

/-- A page is sent if what `handle_directory` says about the entries can be found
out, and an `int` can count the response. -/
theorem handleDirectory_eq_ok_iff {sent : List UInt8} (hentries : host.entries path = some entries) :
    handleDirectory host { request with requestUri := path } = .ok sent ↔
      ∃ infos, entries.mapM (fileInfo path) = .ok infos ∧
        spaceNeeded request (.lit "text/html") (pageText path (shownInfos host infos)).bytes 0 <
          2 ^ 31 ∧
        sent = fileHead request (.lit "text/html") (pageText path (shownInfos host infos)).length ++
          (pageText path (shownInfos host infos)).bytes ++ crlf.bytes := by
  unfold handleDirectory
  simp only [hentries, bind_eq_ok, directoryPage_eq_ok_iff]
  refine exists_congr fun infos => and_congr_right fun hinfos => ?_
  have hsent : socketWriteString
      (fileHead request (.lit "text/html") (pageText path (shownInfos host infos)).length ++
        (pageText path (shownInfos host infos)).bytes ++ crlf.memory) =
      fileHead request (.lit "text/html") (pageText path (shownInfos host infos)).length ++
        (pageText path (shownInfos host infos)).bytes ++ crlf.bytes := by
    have := socketWriteString_memory
      (⟨_, show 0 ∉ fileHead request (.lit "text/html") _ from
        zero_notMem_fileHead (pageText path (shownInfos host infos)).length⟩ ++ pageText path (shownInfos host infos) ++
        crlf)
    refine (congrArg socketWriteString ?_).trans this
    simp only [CString.append_bytes, CString.memory, List.append_assoc]
  constructor
  · intro h
    obtain ⟨page, ⟨hpage, rfl⟩, bytes, hbytes, h⟩ := h
    obtain ⟨hfits, rfl⟩ := (responseString_eq_ok_iff (Nat.lt_of_succ_lt hpage)).mp hbytes
    exact ⟨hfits, (Except.ok.inj h).symm.trans hsent⟩
  · intro h
    obtain ⟨hfits, rfl⟩ := h
    have hpage : (pageText path (shownInfos host infos)).length + 1 < 2 ^ 31 := by
      unfold spaceNeeded at hfits
      rw [CString.length]
      split at hfits <;> omega
    exact ⟨_, ⟨hpage, rfl⟩, _, (responseString_eq_ok_iff (Nat.lt_of_succ_lt hpage)).mpr
      ⟨hfits, rfl⟩, congrArg Except.ok hsent⟩

/-! ### The links -/

/-- The name of an entry in the page leads back to it, with and without a slash
before it. -/
def LinksTo (path : CString) (ent : Entry) (info : Info) : Prop :=
  fileInfo path ent = .ok info ∧
    revisedPath info.name = path ++ .lit "/" ++ ent.name ∧
    revisedPath (.lit "/" ++ info.name) = path ++ .lit "/" ++ ent.name

/-- A page is sent for a directory, and its links lead back to the entries. -/
def LinksBack (host : Host) (request : HttpRequest) (path : CString) (entries : List Entry) :
    Prop :=
  ∃ infos shown sent, List.Forall₂ (LinksTo path) entries infos ∧ shown.Perm infos ∧
    handleDirectory host { request with requestUri := path } = .ok sent ∧
    (pageText path shown).bytes <:+: sent

/-- A directory in `htdocs` whose links are looked up there, and whose path fits
the buffer that it is copied to. -/
structure InHtdocs (names : List CString) (sub : CString) : Prop where
  names_eq : names = [.lit "htdocs", sub]
  notIcons : hasPrefix sub (.lit "icons") = false
  notHtdocs : hasPrefix sub (.lit "htdocs") = false
  short : (pathOf names).length < 256

/-- A text without slashes at the beginning of a path is at the beginning of its
first name. -/
theorem hasPrefix_below {start : CString} (hstart : 47 ∉ start.bytes) (sub name : CString) :
    hasPrefix (sub ++ .lit "/" ++ name) start = hasPrefix sub start := by
  have hpath : (sub ++ .lit "/" ++ name).bytes = sub.bytes ++ [47] ++ name.bytes := rfl
  rw [Bool.eq_iff_iff, hasPrefix, hasPrefix, List.isPrefixOf_iff_prefix, List.isPrefixOf_iff_prefix,
    hpath]
  constructor
  · intro h
    rcases Nat.lt_or_ge sub.bytes.length start.bytes.length with hlt | hle
    · have hslash : sub.bytes ++ [47] <+: start.bytes :=
        List.prefix_of_prefix_length_le (List.prefix_append _ _) h
          (by rw [List.length_append]; exact hlt)
      exact absurd (hslash.subset (List.mem_append_right _ List.mem_cons_self)) hstart
    · rw [List.append_assoc] at h
      exact List.prefix_of_prefix_length_le h (List.prefix_append _ _) hle
  · intro h
    exact (h.trans (List.prefix_append _ _)).trans (List.prefix_append _ _)

/-- A link is looked up in `htdocs`. -/
theorem revisedPath_below (hsub : IsName sub) (name : CString) :
    revisedPath (sub ++ .lit "/" ++ name) = pathOf [.lit "htdocs", sub] ++ .lit "/" ++ name := by
  have hslash : ¬hasPrefix (sub ++ .lit "/" ++ name) (.lit "/") = true := by
    intro h
    obtain ⟨rest, hrest⟩ := hasPrefix_slash h
    obtain ⟨c, cs, hc⟩ := List.exists_cons_of_ne_nil hsub.1
    rw [CString.append_bytes, CString.append_bytes, hc] at hrest
    exact hsub.2 (hc ▸ (List.cons.inj hrest).1 ▸ List.mem_cons_self)
  have hhtdocs : (CString.lit "/htdocs/") = .lit "/" ++ .lit "htdocs" ++ .lit "/" := by decide
  rw [revisedPath, if_neg fun h => hslash (hasPrefix_slash_of_fromRoot h), if_neg hslash, hhtdocs]
  simp only [pathOf, List.foldl_cons, List.foldl_nil, CString.append_assoc]

/-- With a slash before it, a link may be looked up in the document root. -/
theorem revisedPath_slash_below (sub name : CString) :
    revisedPath (.lit "/" ++ (sub ++ .lit "/" ++ name)) =
      pathOf (if hasPrefix sub (.lit "icons") || hasPrefix sub (.lit "htdocs") then [sub]
        else [.lit "htdocs", sub]) ++ .lit "/" ++ name := by
  have hslash : revisedPath (.lit "/" ++ (sub ++ .lit "/" ++ name)) =
      if hasPrefix (sub ++ .lit "/" ++ name) (.lit "icons") ||
        hasPrefix (sub ++ .lit "/" ++ name) (.lit "htdocs") then
        documentRoot ++ (.lit "/" ++ (sub ++ .lit "/" ++ name))
      else documentRoot ++ .lit "/htdocs" ++ (.lit "/" ++ (sub ++ .lit "/" ++ name)) := rfl
  have hhtdocs : (CString.lit "/htdocs") = .lit "/" ++ .lit "htdocs" := by decide
  rw [hslash, hasPrefix_below (by decide), hasPrefix_below (by decide), hhtdocs]
  split <;> simp only [pathOf, List.foldl_cons, List.foldl_nil, CString.append_assoc]

theorem append_right_cancel {s t u : CString} (h : s ++ u = t ++ u) : s = t :=
  CString.ext (List.append_cancel_right (congrArg CString.bytes h))

/-- Directories are told apart by their paths. -/
theorem pathOf_inj {names' : List CString} (hnames : ∀ name ∈ names, IsName name)
    (hnames' : ∀ name ∈ names', IsName name) (h : pathOf names = pathOf names') :
    names = names' := by
  have htokens := congrArg (CString.tokens 47) h
  rw [tokens_pathOf hnames, tokens_pathOf hnames'] at htokens
  exact (List.cons.inj (List.cons.inj htokens).2).2

theorem linksTo_iff {ent : Entry} {info : Info} (hnames : ∀ name ∈ names, IsName name) :
    LinksTo (pathOf names) ent info ↔ ∃ sub, InHtdocs names sub ∧ info = entryInfo sub ent := by
  have hhtdocs : IsName (.lit "htdocs") := by decide
  rw [LinksTo, fileInfo_eq_ok_iff, tokens_pathOf hnames]
  constructor
  · intro h
    obtain ⟨⟨hshort, sub, hsub, rfl⟩, hlink, hslash⟩ := h
    have hname : IsName sub := hnames sub (List.mem_of_getElem? hsub)
    have hmem : ∀ name ∈ [.lit "htdocs", sub], IsName name := by
      simpa using ⟨hhtdocs, hname⟩
    rw [entryInfo, revisedPath_below hname] at hlink
    have heq := pathOf_inj hmem hnames (append_right_cancel (append_right_cancel hlink))
    rw [entryInfo, revisedPath_slash_below] at hslash
    cases hfrom : hasPrefix sub (.lit "icons") || hasPrefix sub (.lit "htdocs") with
    | false =>
      obtain ⟨hicons, hnot⟩ := Bool.or_eq_false_iff.mp hfrom
      exact ⟨sub, ⟨heq.symm, hicons, hnot, hshort⟩, rfl⟩
    | true =>
      rw [if_pos hfrom] at hslash
      have := pathOf_inj (fun name h => hmem name (List.mem_cons_of_mem _ h)) hnames
        (append_right_cancel (append_right_cancel hslash))
      rw [← heq] at this
      cases this
  · intro h
    obtain ⟨sub, ⟨rfl, hicons, hnot, hshort⟩, rfl⟩ := h
    have hname : IsName sub := hnames sub (by simp)
    refine ⟨⟨hshort, sub, rfl, rfl⟩, revisedPath_below hname _, ?_⟩
    rw [entryInfo, revisedPath_slash_below, hicons, hnot]
    rfl

/-- The length of a page does not depend on the order of its rows. -/
theorem pageText_length_perm {infos infos' : List Info} (h : infos.Perm infos') :
    (pageText path infos).length = (pageText path infos').length := by
  have htags : tagsLength (infos.flatMap rowTags) = tagsLength (infos'.flatMap rowTags) :=
    ((h.flatMap_right rowTags).map CString.length).sum_nat
  rw [pageText, pageText, CString.append_length, CString.append_length, addTags_length,
    addTags_length, htags]

theorem spaceNeeded_congr {contentType : CString} {content content' : List UInt8}
    (h : content.length = content'.length) (found : Nat) :
    spaceNeeded request contentType content found = spaceNeeded request contentType content' found := by
  rw [spaceNeeded, spaceNeeded, h]

theorem shownInfos_perm (hsort : ∀ infos, (host.qsort compareNameAscending infos).Perm infos)
    (infos : List Info) : (shownInfos host infos).Perm infos := by
  unfold shownInfos
  split
  · exact hsort infos
  · exact .refl infos

/-- The links of a directory in `htdocs`. -/
theorem linksTo_map (hnames : ∀ name ∈ names, IsName name)
    (hdir : entries ≠ [] → InHtdocs names sub) :
    List.Forall₂ (LinksTo (pathOf names)) entries (entries.map (entryInfo sub)) := by
  rw [List.forall₂_map_right_iff, List.forall₂_same]
  exact fun ent hent => (linksTo_iff hnames).mpr ⟨sub, hdir (List.ne_nil_of_mem hent), rfl⟩

/-- **Links lead back** exactly in the directories of `htdocs`, where the name of
the directory does not look like one of the document root. -/
theorem links_back_iff (hnames : ∀ name ∈ names, IsName name)
    (hentries : host.entries (pathOf names) = some entries)
    (hsort : ∀ infos, (host.qsort compareNameAscending infos).Perm infos) :
    LinksBack host request (pathOf names) entries ↔
      ∃ sub, (entries ≠ [] → InHtdocs names sub) ∧
        spaceNeeded request (.lit "text/html")
          (pageText (pathOf names) (entries.map (entryInfo sub))).bytes 0 < 2 ^ 31 := by
  have hspace : ∀ infos, spaceNeeded request (.lit "text/html")
      (pageText (pathOf names) (shownInfos host infos)).bytes 0 =
        spaceNeeded request (.lit "text/html") (pageText (pathOf names) infos).bytes 0 :=
    fun infos => spaceNeeded_congr (pageText_length_perm (shownInfos_perm hsort infos)) 0
  have hmap : ∀ sub, (entries ≠ [] → InHtdocs names sub) →
      entries.mapM (fileInfo (pathOf names)) = .ok (entries.map (entryInfo sub)) :=
    fun sub hdir => mapM_eq_ok_iff.mpr ((linksTo_map hnames hdir).imp fun _ _ h => h.1)
  constructor
  · intro h
    obtain ⟨infos, shown, sent, hlinks, -, hsent, -⟩ := h
    obtain ⟨infos', hinfos, hfits, -⟩ := (handleDirectory_eq_ok_iff hentries).mp hsent
    have hdir : ∃ sub, entries ≠ [] → InHtdocs names sub := by
      cases hlinks with
      | nil => exact ⟨.lit "", fun h => absurd rfl h⟩
      | cons hlink _ =>
        obtain ⟨sub, hsub, -⟩ := (linksTo_iff hnames).mp hlink
        exact ⟨sub, fun _ => hsub⟩
    obtain ⟨sub, hsub⟩ := hdir
    rw [hmap sub hsub] at hinfos
    cases hinfos
    exact ⟨sub, hsub, hspace _ ▸ hfits⟩
  · intro h
    obtain ⟨sub, hsub, hfits⟩ := h
    refine ⟨_, shownInfos host (entries.map (entryInfo sub)), _, linksTo_map hnames hsub,
      shownInfos_perm hsort _, (handleDirectory_eq_ok_iff hentries).mpr
        ⟨_, hmap sub hsub, (hspace _).trans_lt hfits, rfl⟩, ?_⟩
    exact ⟨_, _, rfl⟩

/-- A file of six bytes. -/
def sampleEntry : Entry where
  name := .lit "a.html"
  isDir := false
  size := 6
  modified := ⟨118, 3, 1, 12, 30⟩

/-- A host on which every directory has the same file in it. -/
def sampleHost : Host where
  file _ := none
  isDirectory _ := true
  entries _ := some [sampleEntry]
  fileCommand _ := none
  qsort _ infos := infos
  afterBody := []
  afterString := []
  addressable := by decide
  notDirectory _ h := nomatch h

/-- The links of a directory in `htdocs`. -/
theorem links_back_dir1 :
    LinksBack sampleHost indexRequest (pathOf [.lit "htdocs", .lit "dir1"]) [sampleEntry] :=
  (links_back_iff (by decide) rfl fun _ => .refl _).mpr
    ⟨.lit "dir1", fun _ => ⟨rfl, by decide, by decide, by decide⟩, by decide +kernel⟩

/-- The directory `htdocs` has no page, and in a directory two levels below it the
links lead to the level between. -/
theorem links_astray :
    handleDirectory sampleHost { indexRequest with requestUri := pathOf [.lit "htdocs"] } =
        .error .null ∧
      ¬LinksBack sampleHost indexRequest (pathOf [.lit "htdocs"]) [sampleEntry] ∧
      fileInfo (pathOf [.lit "htdocs", .lit "dir1", .lit "dir2"]) sampleEntry =
        .ok (entryInfo (.lit "dir1") sampleEntry) ∧
      revisedPath (entryInfo (.lit "dir1") sampleEntry).name =
        pathOf [.lit "htdocs", .lit "dir1", .lit "a.html"] ∧
      ¬LinksBack sampleHost indexRequest
        (pathOf [.lit "htdocs", .lit "dir1", .lit "dir2"]) [sampleEntry] := by
  have hpage : handleDirectory sampleHost
      { indexRequest with requestUri := pathOf [.lit "htdocs"] } = .error .null := by decide
  have hdeep : ∀ name ∈ [CString.lit "htdocs", .lit "dir1", .lit "dir2"], IsName name := by decide
  refine ⟨hpage, ?_, by decide, by decide, ?_⟩
  · intro h
    obtain ⟨_, _, _, _, _, hsent, _⟩ := h
    cases hpage.symm.trans hsent
  · intro h
    obtain ⟨_, _, _, hlinks, _⟩ := h
    cases hlinks with
    | cons hlink _ =>
      obtain ⟨sub, hsub, _⟩ := (linksTo_iff hdeep).mp hlink
      cases hsub.names_eq

end Cs252.Http
