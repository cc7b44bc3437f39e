import Mathlib.Data.List.Forall2
import RecipePlanner.Proofs.FileTree.Listing
import RecipePlanner.RecipeFolder

/-!
# The documents of a folder

Reading the documents of a folder gives one for every file in it or below it that has the extension, and
nothing else (`documents_eq_files`). They come in the order of the names that lead to the files, so
`a/x.json` is read before `a.json`, and as the names of a path can be told from it, no two documents have
the same name (`nodup_map_relative`).
-/

namespace RecipePlanner

namespace RecipeFolder

open FileTree

/-- The document has the path of the file as its name, and the text of the file, none if the bytes of
the file are not those of a text. -/
structure IsDocumentOf (doc : RecipeText) (file : Located) : Prop where
  filename : doc.filename = "/".intercalate file.1
  text : ∀ text, Text.bytes text = file.2 → doc.text = text
  empty : (∀ text, Text.bytes text ≠ file.2) → doc.text = ""

theorem isDocumentOf_document (file : Located) : IsDocumentOf (document file) file := by
  constructor
  case filename => rfl
  case text =>
    intro text htext
    rw [document, Text.ofBytes?_eq_some_iff.2 htext]
    rfl
  case empty =>
    intro hnone
    have hbytes : Text.ofBytes? file.2 = none :=
      Option.eq_none_iff_forall_ne_some.2 fun text htext =>
        hnone text (Text.ofBytes?_eq_some_iff.1 htext)
    rw [document, hbytes]
    rfl

theorem isDocument_iff {es : List (String × FileTree)} (h : (folder es).Proper) (name : String)
    {names : List String} {bytes : List UInt8} (hfile : HasFile (folder es) names bytes) :
    isDocument name names = true ↔ HasExtension "json" names := by
  rw [← h.extension?_getLast?_iff (by decide) hfile]
  obtain ⟨dirs, last, rfl⟩ := hfile.exists_eq_append
  rw [isDocument, List.getLast?_concat, Option.getD_some, decide_eq_true_iff, Option.bind_some]
  rfl

/-- Different files below a folder have different paths. -/
theorem nodup_map_relative {es : List (String × FileTree)} (h : (folder es).Proper)
    {files : List Located} (hfiles : ∀ file ∈ files, HasFile (folder es) file.1 file.2)
    (horder : files.Pairwise fun a b => Before a.1 b.1) :
    (files.map fun file => relative file.1).Nodup := by
  have hpieces : ∀ file ∈ files, Files.Path.pieces (relative file.1) = file.1 := by
    intro file hfile
    obtain ⟨dirs, name, hnames⟩ := (hfiles file hfile).exists_eq_append
    apply pieces_relative
    · rw [hnames]
      exact List.append_ne_nil_of_right_ne_nil dirs (List.cons_ne_nil name [])
    · exact h.isName_of_hasFile (hfiles file hfile)
  rw [List.Nodup, List.pairwise_map]
  refine horder.imp_of_mem fun {a b} ha hb hbefore heq => ?_
  rw [← hpieces a ha, ← hpieces b hb, heq] at hbefore
  exact not_before_self _ hbefore

/-- Reading the documents of a folder gives one for every file in it or below it whose name has the
extension, in the order of the names that lead to the files, and no two documents have the same
name. -/
theorem documents_eq_files {t : FileTree} (hproper : t.Proper) {path : String}
    {es : List (String × FileTree)} (hfind : t.find path = .ok (folder es)) :
    ∃ docs files, documents t path = .ok docs ∧ List.Forall₂ IsDocumentOf docs files ∧
      (∀ names bytes, (names, bytes) ∈ files ↔
        HasFile (folder es) names bytes ∧ HasExtension "json" names) ∧
      files.Pairwise (fun a b => Before a.1 b.1) ∧ (docs.map (·.filename)).Nodup := by
  have hfound : (folder es).Proper := hproper.find hfind
  have horder := hfound.pairwise_filesBelow.filter fun file => isDocument path file.1
  refine ⟨documentsOf path (folder es), _, by rw [documents, hfind],
    List.forall₂_map_left_iff.2 (List.forall₂_same.2 fun file _ => isDocumentOf_document file),
    ?_, horder, ?_⟩
  · intro names bytes
    rw [List.mem_filter, mem_filesBelow_iff]
    exact and_congr_right fun hfile => isDocument_iff hfound path hfile
  · rw [documentsOf, List.map_map]
    apply nodup_map_relative hfound _ horder
    exact fun file hfile => mem_filesBelow_iff.1 (List.mem_of_mem_filter hfile)

/-- A folder whose name comes before that of a file though its path does not, a file that is no text
and one without the extension. -/
theorem documents_eq_files_nested :
    let below : List (String × FileTree) := [("..json", .file [0xFF]), ("x.json", .file [0x31])]
    let es : List (String × FileTree) :=
      [("a", .folder below), ("a.json", .file [0x7B, 0x7D]), ("notes", .file [])]
    let t : FileTree := .folder [("d", .folder es)]
    t.Proper ∧ t.find "d" = .ok (.folder es) ∧
      documents t "d" = .ok [⟨"a/..json", ""⟩, ⟨"a/x.json", "1"⟩, ⟨"a.json", "\x7b\x7d"⟩] ∧
      ∃ docs files, documents t "d" = .ok docs ∧ List.Forall₂ IsDocumentOf docs files ∧
        (∀ names bytes, (names, bytes) ∈ files ↔
          HasFile (folder es) names bytes ∧ HasExtension "json" names) ∧
        files.Pairwise (fun a b => Before a.1 b.1) ∧ (docs.map (·.filename)).Nodup := by
  intro below es t
  have hbelow : (folder below).Proper := by
    refine .folder (by decide) (by decide) ?_
    simp [below, Proper.file]
  have hes : (folder es).Proper := by
    refine .folder (by decide) (by decide) ?_
    simp [es, Proper.file, hbelow]
  have hproper : t.Proper := by
    refine .folder (by decide) (by decide) ?_
    simp [hes]
  have hfind : t.find "d" = .ok (.folder es) := by
    have hpieces : Files.Path.pieces "d" = ["d"] := by decide +kernel
    rw [find, if_neg (by decide), hpieces]
    rfl
  have hfiles : (folder es).filesBelow = [(["a", "..json"], [0xFF]), (["a", "x.json"], [0x31]),
      (["a.json"], [0x7B, 0x7D]), (["notes"], [])] := by
    have hfilesBelow : (folder below).filesBelow = [(["..json"], [0xFF]), (["x.json"], [0x31])] :=
      inOrder_of_pairwise (by decide)
    rw [filesBelow, filesOfEntries, hfilesBelow]
    exact inOrder_of_pairwise (by decide)
  have hdocs : documents t "d" =
      .ok [⟨"a/..json", ""⟩, ⟨"a/x.json", "1"⟩, ⟨"a.json", "\x7b\x7d"⟩] := by
    rw [documents, hfind]
    dsimp only
    rw [documentsOf, hfiles]
    decide +kernel
  exact ⟨hproper, hfind, hdocs, documents_eq_files hproper hfind⟩

end RecipeFolder

end RecipePlanner
