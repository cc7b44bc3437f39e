import RecipePlanner.Proofs.Catalogue.Listing
import RecipePlanner.Proofs.FileTree.Listing
import RecipePlanner.Proofs.Outcome

/-!
# Catalogues from folders

What the files of a folder list for a tag (`HasEntry`) stands in the list of tags or in a file of its own
below a tag folder, and it is what is read of them (`hasEntry_iff`). A catalogue that is loaded holds in
each tag what the files list for the tags that are reached from it, and it does not matter whether they
also have optional values that name tags without entries (`load_holds_listed`).

A tag file is for the tag with the path of the file up to the extension, with one exception: of `..json`
the two dots are left, as they are of `...json`, so both files are for the tag `..` and none is for the
tag `.` (`lastPart`). A file named `.json` has no extension and is for no tag.
-/

namespace RecipePlanner.Catalogue

open FileTree Relation

/-! ## What the files list -/

/-- The values that the bytes of a tag file write, if they are those of one. -/
def valuesIn? (bytes : List UInt8) : Option (List TagValue) :=
  (Text.ofBytes? bytes).bind fun text =>
    (DataFile.Format.json.parse? text).bind fun (style, d) => TagValue.fileOfDatum? style d

/-- What is left of the name of a tag file: what stands in front of the extension, but `..` for a
single dot. -/
def lastPart (stem : String) : String := if stem = "." then ".." else stem

/-- The files of a folder list the value for the tag: an entry in the list of tags does, or a file below
a tag folder. Such a file is for the tag with the path of the file, where `called` gives the last part of
the path for what stands in front of the extension. -/
inductive HasEntry (t : FileTree) (folder : String) (called : String → String) :
    (tag : String) → TagValue → Prop where
  | listed {path : String} {es : List TagEntry} {e : TagEntry} {v : TagValue}
      (hpath : DataFile.find? t folder "tags" = .ok (some path))
      (hes : DataFile.readList t path "tags" TagEntry.ofDatum? = .ok es)
      (he : e ∈ es) (hv : v ∈ e.values) : HasEntry t folder called (Naming.tagName e.id) v
  | filed {sub : String} {below : List (String × FileTree)} {dirs : List String} {stem : String}
      {bytes : List UInt8} {values : List TagValue} {v : TagValue} (hsub : sub ∈ tagFolders)
      (hfind : t.find (Files.Path.join folder sub) = .ok (.folder below))
      (hfile : HasFile (.folder below) (dirs ++ [stem ++ "." ++ "json"]) bytes) (hstem : stem ≠ "")
      (hvalues : valuesIn? bytes = some values) (hv : v ∈ values) :
      HasEntry t folder called
        (Naming.tagName ("#" ++ Naming.defaultNamespace ++ ":" ++ relative (dirs ++ [called stem]))) v

/-- The item is in the list of items. -/
def IsListed (t : FileTree) (folder id : String) : Prop :=
  ∃ items, readItems t folder = .ok items ∧ id ∈ items.map fun e => e.id

/-! ## Reading tag files -/

theorem withoutExtension_append {stem : String} (h : stem ≠ "") :
    Files.Path.withoutExtension (stem ++ "." ++ "json") = lastPart stem := by
  have hcut : Files.Path.cutAtDot (stem ++ "." ++ "json") = (stem, some "json") :=
    Files.Path.cutAtDot_eq_iff.2 ⟨h, by decide, rfl⟩
  rw [Files.Path.withoutExtension, hcut, lastPart]
  by_cases hdot : stem = "."
  · rw [hdot]
    rfl
  · rw [if_neg hdot]
    split
    · next heq => exact absurd (Prod.mk.inj heq).1 hdot
    · next heq => exact (Prod.mk.inj heq).1.symm

theorem tagOfFile_append {dirs : List String} {stem : String} (h : stem ≠ "") :
    tagOfFile (dirs ++ [stem ++ "." ++ "json"]) =
      "#" ++ Naming.defaultNamespace ++ ":" ++ relative (dirs ++ [lastPart stem]) := by
  rw [tagOfFile, List.dropLast_concat, List.getLast?_concat, Option.map_some,
    withoutExtension_append h, Option.toList_some]

theorem isTagFile_iff {es : List (String × FileTree)} (h : (folder es).Proper)
    {names : List String} {bytes : List UInt8} (hfile : HasFile (folder es) names bytes) :
    isTagFile (names, bytes) = true ↔ HasExtension "json" names := by
  rw [isTagFile, decide_eq_true_iff]
  exact h.extension?_getLast?_iff (by decide) hfile

theorem orMalformed_eq_ok_iff {α : Type} {path : String} {result : Option α} {a : α} :
    DataFile.orMalformed path result = .ok a ↔ result = some a := by
  cases result with
  | none => exact ⟨nofun, nofun⟩
  | some b => rw [DataFile.orMalformed, Except.ok.injEq, Option.some.injEq]

theorem readTagFile_eq_ok_iff {path : String} {file : Located} {e : TagEntry} :
    readTagFile path file = .ok e ↔
      ∃ values, valuesIn? file.2 = some values ∧ ⟨tagOfFile file.1, values⟩ = e := by
  obtain ⟨names, bytes⟩ := file
  rw [readTagFile, Outcome.bind_eq_ok_iff]
  have hparse : ∀ values, DataFile.parse (Files.Path.join path (relative names)) (textOf bytes)
      (fun text => (DataFile.Format.json.parse? text).bind fun (style, d) =>
        TagValue.fileOfDatum? style d) = .ok values ↔ valuesIn? bytes = some values := by
    intro values
    rw [textOf, valuesIn?]
    cases Text.ofBytes? bytes with
    | none => exact ⟨nofun, nofun⟩
    | some text => exact orMalformed_eq_ok_iff
  constructor
  · rintro ⟨values, hvalues, heq⟩
    exact ⟨values, (hparse values).1 hvalues, Except.ok.inj heq⟩
  · rintro ⟨values, hvalues, heq⟩
    exact ⟨values, (hparse values).2 hvalues, congrArg Except.ok heq⟩

/-- The entries of a tag folder are those of its tag files. -/
theorem mem_readTagFolder_iff {t : FileTree} (hproper : t.Proper) {path : String}
    {es : List TagEntry} (h : readTagFolder t path = .ok es) {e : TagEntry} :
    e ∈ es ↔ ∃ below, t.find path = .ok (.folder below) ∧ ∃ dirs stem bytes,
      HasFile (.folder below) (dirs ++ [stem ++ "." ++ "json"]) bytes ∧ stem ≠ "" ∧
        ∃ values, valuesIn? bytes = some values ∧
          ⟨"#" ++ Naming.defaultNamespace ++ ":" ++ relative (dirs ++ [lastPart stem]), values⟩ = e := by
  rw [readTagFolder] at h
  split at h
  · next below hfind =>
    have hbelow : (folder below).Proper := hproper.find hfind
    rw [Outcome.mem_iff_of_mapM_eq_ok h]
    simp only [List.mem_filter, hfind, readTagFile_eq_ok_iff]
    constructor
    · rintro ⟨⟨names, bytes⟩, ⟨hmem, htag⟩, values, hvalues, he⟩
      have hfile := mem_filesBelow_iff.1 hmem
      obtain ⟨dirs, stem, hstem, rfl⟩ := (isTagFile_iff hbelow hfile).1 htag
      rw [tagOfFile_append hstem] at he
      exact ⟨below, rfl, dirs, stem, bytes, hfile, hstem, values, hvalues, he⟩
    · rintro ⟨_, hsame, dirs, stem, bytes, hfile, hstem, values, hvalues, he⟩
      cases hsame
      refine ⟨(_, bytes), ⟨mem_filesBelow_iff.2 hfile, ?_⟩, values, hvalues, ?_⟩
      · exact (isTagFile_iff hbelow hfile).2 ⟨dirs, stem, hstem, rfl⟩
      · rwa [tagOfFile_append hstem]
  · next hnone =>
    cases h
    refine ⟨nofun, ?_⟩
    rintro ⟨below, hfind, -⟩
    exact absurd hfind (hnone below)

/-! ## Reading listings -/

theorem mem_readTags_iff {t : FileTree} {folder : String} {es : List TagEntry}
    (h : readTags t folder = .ok es) {e : TagEntry} :
    e ∈ es ↔ ∃ path entries, DataFile.find? t folder "tags" = .ok (some path) ∧
      DataFile.readList t path "tags" TagEntry.ofDatum? = .ok entries ∧ e ∈ entries := by
  rw [readTags, Outcome.bind_eq_ok_iff] at h
  obtain ⟨found, hfound, h⟩ := h
  rw [hfound]
  cases found with
  | none =>
    cases h
    exact ⟨nofun, fun ⟨_, _, hpath, _⟩ => nomatch hpath⟩
  | some path =>
    constructor
    · intro he
      exact ⟨path, es, rfl, h, he⟩
    · rintro ⟨_, entries, hpath, hentries, he⟩
      cases hpath
      cases h.symm.trans hentries
      exact he

theorem readListing_eq_ok_iff {t : FileTree} {folder : String} {l : Listing} :
    readListing t folder = .ok l ↔ readItems t folder = .ok l.items ∧
      ∃ listed filed, readTags t folder = .ok listed ∧
        (tagFolders.mapM fun sub => readTagFolder t (Files.Path.join folder sub)) = .ok filed ∧
          listed ++ filed.flatten = l.tags := by
  rw [readListing, Outcome.bind_eq_ok_iff]
  simp only [Outcome.bind_eq_ok_iff]
  constructor
  · rintro ⟨items, hitems, listed, hlisted, filed, hfiled, heq⟩
    cases heq
    exact ⟨hitems, listed, filed, hlisted, hfiled, rfl⟩
  · rintro ⟨hitems, listed, filed, hlisted, hfiled, htags⟩
    refine ⟨l.items, hitems, listed, hlisted, filed, hfiled, ?_⟩
    rw [htags]
    rfl

/-- What the files of a folder list is what is read of them. -/
theorem hasEntry_iff {t : FileTree} (hproper : t.Proper) {folder : String} {l : Listing}
    (h : readListing t folder = .ok l) {tag : String} {v : TagValue} :
    HasEntry t folder lastPart tag v ↔ l.HasEntry tag v := by
  obtain ⟨-, listed, filed, hlisted, hfiled, htags⟩ := readListing_eq_ok_iff.1 h
  rw [Listing.HasEntry, ← htags]
  constructor
  · intro hentry
    cases hentry with
    | @listed path es e v hpath hes he hv =>
      have hmem := (mem_readTags_iff hlisted).2 ⟨path, es, hpath, hes, he⟩
      exact ⟨e, List.mem_append_left _ hmem, rfl, hv⟩
    | @filed sub below dirs stem bytes values v hsub hfind hfile hstem hvalues hv =>
      obtain ⟨es, hes, hread⟩ := Outcome.exists_mem_of_mapM_eq_ok hfiled hsub
      have hmem := (mem_readTagFolder_iff hproper hread).2
        ⟨below, hfind, dirs, stem, bytes, hfile, hstem, values, hvalues, rfl⟩
      exact ⟨_, List.mem_append_right _ (List.mem_flatten.2 ⟨es, hes, hmem⟩), rfl, hv⟩
  · rintro ⟨e, he, rfl, hv⟩
    rcases List.mem_append.1 he with he | he
    · obtain ⟨path, entries, hpath, hentries, he⟩ := (mem_readTags_iff hlisted).1 he
      exact .listed hpath hentries he hv
    · obtain ⟨es, hes, he⟩ := List.mem_flatten.1 he
      obtain ⟨sub, hsub, hread⟩ := (Outcome.mem_iff_of_mapM_eq_ok hfiled).1 hes
      obtain ⟨below, hfind, dirs, stem, bytes, hfile, hstem, values, hvalues, rfl⟩ :=
        (mem_readTagFolder_iff hproper hread).1 he
      exact .filed hsub hfind hfile hstem hvalues hv

/-! ## Loaded catalogues -/

/-- The tags of the catalogue hold what the files of the folder list: an item is in a tag exactly if a
tag that is reached from it through values that name tags has a value for the item, which is required
or whose item is listed. -/
def HoldsListed (t : FileTree) (folder : String) (called : String → String) (c : Catalogue) : Prop :=
  ∀ tag id, Naming.isTagName id = false →
    (id ∈ (c.members tag).map (·.id) ↔
      ∃ other, ReflTransGen (Names (HasEntry t folder called)) (Naming.tagName tag) other ∧
        Contains (HasEntry t folder called) (IsListed t folder) other id)

theorem load_eq_ok_iff {t : FileTree} {folder : String} {c : Catalogue} :
    load t folder = .ok c ↔
      ∃ l, readListing t folder = .ok l ∧ (Draft.ofListing l).build = .ok c := by
  rw [load, Outcome.bind_eq_ok_iff]
  refine exists_congr fun l => and_congr_right fun _ => ?_
  cases (Draft.ofListing l).build with
  | error fault => exact ⟨nofun, nofun⟩
  | ok c => rw [Except.mapError, Except.ok.injEq, Except.ok.injEq]

/-- The tags of a catalogue that is loaded hold what the files of its folder list. Optional values that
name tags without entries might as well not be listed: the outcome is the same, be it a catalogue or a
fault. -/
theorem load_holds_listed {t : FileTree} (hproper : t.Proper) (folder : String) :
    (∀ l, readListing t folder = .ok l →
      load t folder =
        (Draft.ofListing l.withoutUndefined).build.mapError (DataFault.catalogue folder)) ∧
    ∀ c, load t folder = .ok c → (∀ l, readListing t folder = .ok l → l.IsTrimmed) →
      HoldsListed t folder lastPart c := by
  constructor
  · intro l hl
    rw [build_withoutUndefined, load, hl]
    rfl
  · intro c hload htrimmed tag id hid
    obtain ⟨l, hl, hbuild⟩ := load_eq_ok_iff.1 hload
    have hentries : HasEntry t folder lastPart = l.HasEntry := by
      funext tag v
      exact propext (hasEntry_iff hproper hl)
    have hlisted : IsListed t folder = l.HasItem := by
      funext id
      rw [IsListed, (readListing_eq_ok_iff.1 hl).1]
      simp [Listing.HasItem]
    rw [Draft.map_id_members hbuild, Draft.mem_flatten_ofListing_iff (htrimmed l hl) hid, hentries,
      hlisted]

/-! ## Two folders -/

/-- A folder `r` with a list of items, a list of tags and one tag file. -/
def sample (items tags name text : String) : FileTree :=
  .folder [("r", .folder [("items.json", .file (Text.bytes items)),
    ("tags.json", .file (Text.bytes tags)),
    ("tags", .folder [("item", .folder [(name, .file (Text.bytes text))])])])]

section Sample

variable {items tags name text : String}

theorem proper_sample (h : Files.Path.IsName name) : (sample items tags name text).Proper := by
  have htagFolder : (folder [(name, .file (Text.bytes text))]).Proper :=
    .of_names [name] rfl (List.forall_mem_singleton.2 h) (List.nodup_singleton _)
      (by simp [Proper.file])
  have htags : (folder [("item", folder [(name, .file (Text.bytes text))])]).Proper :=
    .of_names ["item"] rfl (by decide) (by decide) (by simp [htagFolder])
  have hfolder : (folder [("items.json", .file (Text.bytes items)),
      ("tags.json", .file (Text.bytes tags)),
      ("tags", .folder [("item", .folder [(name, .file (Text.bytes text))])])]).Proper :=
    .of_names ["items.json", "tags.json", "tags"] rfl (by decide) (by decide)
      (by simp [Proper.file, htags])
  exact .of_names ["r"] rfl (by decide) (by decide) (by simp [hfolder])

theorem find_sample :
    (sample items tags name text).find (Files.Path.join "r" "tags/item") =
      .ok (.folder [(name, .file (Text.bytes text))]) := by
  have hjoin : Files.Path.join "r" "tags/item" = "r/tags/item" := by decide
  have hpieces : Files.Path.pieces "r/tags/item" = ["r", "tags", "item"] := by decide +kernel
  rw [hjoin, find, if_neg (by decide), hpieces]
  rfl

theorem find_sample_items :
    (sample items tags name text).find (Files.Path.join "r" "tags/items") = .error .notFound := by
  have hjoin : Files.Path.join "r" "tags/items" = "r/tags/items" := by decide
  have hpieces : Files.Path.pieces "r/tags/items" = ["r", "tags", "items"] := by decide +kernel
  rw [hjoin, find, if_neg (by decide), hpieces]
  rfl

theorem readTagFolder_sample {e : TagEntry} (htag : isTagFile ([name], Text.bytes text) = true)
    (he : readTagFile (Files.Path.join "r" "tags/item") ([name], Text.bytes text) = .ok e) :
    readTagFolder (sample items tags name text) (Files.Path.join "r" "tags/item") = .ok [e] := by
  have hfiles : (folder [(name, .file (Text.bytes text))]).filesBelow =
      [([name], Text.bytes text)] := inOrder_of_pairwise (List.pairwise_singleton _ _)
  rw [readTagFolder, find_sample]
  dsimp only
  rw [hfiles, List.filter_cons_of_pos htag, List.filter_nil, List.mapM_cons, he]
  rfl

theorem readListing_sample {l : Listing} {listed : List TagEntry} {e : TagEntry}
    (hitems : readItems (sample items tags name text) "r" = .ok l.items)
    (hlisted : readTags (sample items tags name text) "r" = .ok listed)
    (htag : isTagFile ([name], Text.bytes text) = true)
    (he : readTagFile (Files.Path.join "r" "tags/item") ([name], Text.bytes text) = .ok e)
    (hl : listed ++ [e] = l.tags) : readListing (sample items tags name text) "r" = .ok l := by
  have hnone : readTagFolder (sample items tags name text) (Files.Path.join "r" "tags/items") =
      .ok [] := by
    rw [readTagFolder, find_sample_items]
  refine readListing_eq_ok_iff.2 ⟨hitems, listed, [[e], []], hlisted, ?_, hl⟩
  rw [tagFolders, List.mapM_cons, List.mapM_cons, readTagFolder_sample htag he, hnone]
  rfl

end Sample

/-- A tag in the list of tags and one in a file. The first names the second, and both have values that
are not required: an item that is not listed, one that is, and a tag without entries. -/
theorem load_holds_listed_wood :
    let t := sample "[\x7b\"id\":\"oak\"\x7d]"
      ("[\x7b\"id\":\"wood\",\"values\":" ++
        "[\"#logs\",\x7b\"id\":\"ash\",\"required\":false\x7d]\x7d]")
      "logs.json"
      ("\x7b\"values\":[\"birch\",\x7b\"id\":\"oak\",\"required\":false\x7d," ++
        "\x7b\"id\":\"#gone\",\"required\":false\x7d]\x7d")
    let l : Listing := ⟨[⟨"oak", none⟩],
      [⟨"wood", [⟨"#logs", true⟩, ⟨"ash", false⟩]⟩,
        ⟨"#minecraft:logs", [⟨"birch", true⟩, ⟨"oak", false⟩, ⟨"#gone", false⟩]⟩]⟩
    let c : Catalogue := ⟨[⟨"oak", "Oak"⟩],
      [("#minecraft:wood", ["birch", "oak"]), ("#minecraft:logs", ["birch", "oak"])]⟩
    t.Proper ∧ readListing t "r" = .ok l ∧ l.IsTrimmed ∧
      load t "r" = (Draft.ofListing l.withoutUndefined).build.mapError (DataFault.catalogue "r") ∧
      load t "r" = .ok c ∧ HoldsListed t "r" lastPart c := by
  intro t l c
  have hproper : t.Proper := proper_sample (by decide)
  have hlisting : readListing t "r" = .ok l := by
    apply @readListing_sample _ _ _ _ l [⟨"wood", [⟨"#logs", true⟩, ⟨"ash", false⟩]⟩]
      ⟨"#minecraft:logs", [⟨"birch", true⟩, ⟨"oak", false⟩, ⟨"#gone", false⟩]⟩
    all_goals decide +kernel
  have htrimmed : l.IsTrimmed := by
    constructor
    · decide +kernel
    · decide +kernel
  have hload : load t "r" = .ok c :=
    load_eq_ok_iff.2 ⟨l, hlisting, Draft.build_eq_ok (by decide +kernel)⟩
  have hmain := load_holds_listed hproper "r"
  refine ⟨hproper, hlisting, htrimmed, hmain.1 l hlisting, hload, hmain.2 c hload ?_⟩
  intro l' hl'
  cases hlisting.symm.trans hl'
  exact htrimmed

/-- Tags are not always named after the paths of their files: the file `..json` is not for the tag `.`
but for the tag `..`, as the file `...json` is. -/
theorem not_forall_holds_listed_path :
    ¬ ∀ (t : FileTree) (folder : String) (c : Catalogue), t.Proper → load t folder = .ok c →
      (∀ l, readListing t folder = .ok l → l.IsTrimmed) → HoldsListed t folder id c := by
  intro h
  let text := "\x7b\"values\":[\"a\"]\x7d"
  let t := sample "[]" "[]" "..json" text
  let l : Listing := ⟨[], [⟨"#minecraft:..", [⟨"a", true⟩]⟩]⟩
  let c : Catalogue := ⟨[], [("#minecraft:..", ["a"])]⟩
  have hlisting : readListing t "r" = .ok l := by
    apply @readListing_sample _ _ _ _ l [] ⟨"#minecraft:..", [⟨"a", true⟩]⟩
    all_goals decide +kernel
  have hload : load t "r" = .ok c :=
    load_eq_ok_iff.2 ⟨l, hlisting, Draft.build_eq_ok (by decide +kernel)⟩
  have htrimmed : ∀ l', readListing t "r" = .ok l' → l'.IsTrimmed := by
    intro l' hl'
    cases hlisting.symm.trans hl'
    exact ⟨by decide, by decide +kernel⟩
  have hdot : Naming.tagName "." =
      Naming.tagName ("#" ++ Naming.defaultNamespace ++ ":" ++ relative ([] ++ [id "."])) := by
    decide +kernel
  have hvalues : valuesIn? (Text.bytes text) = some [⟨"a", true⟩] := by decide +kernel
  have hentry : HasEntry t "r" id (Naming.tagName ".") ⟨"a", true⟩ := by
    rw [hdot]
    exact .filed List.mem_cons_self find_sample (.inside List.mem_cons_self .here) (by decide)
      hvalues List.mem_cons_self
  have hmem : "a" ∈ (c.members ".").map (·.id) :=
    (h t "r" c (proper_sample (by decide)) hload htrimmed "." "a" (by decide)).2
      ⟨_, .refl, _, hentry, rfl, Or.inl rfl⟩
  have hnone : (c.members ".").map (·.id) = [] := by decide +kernel
  rw [hnone] at hmem
  cases hmem

end RecipePlanner.Catalogue
