import RecipePlanner.FileTree
import RecipePlanner.Proofs.Text.Order

/-!
# The files of a tree

All files of a tree are listed, each under the names that lead to it (`mem_filesBelow_iff`). In a proper
tree, where every entry of a folder has a name of its own that is possible for one, they are listed in
the order of these lists of names, name by name (`Proper.pairwise_filesBelow`). So the files in a folder
stand together, and `a/x` comes before `a-b` though the characters of the two paths say otherwise.

A possible name has an extension exactly if it ends in a dot and the extension and does not start with
that dot (`Files.Path.extension?_eq_some_iff`).
-/

namespace RecipePlanner

namespace Files.Path

/-- A name that an entry of a folder can have. -/
structure IsName (name : String) : Prop where
  ne_empty : name ≠ ""
  ne_here : name ≠ "."
  ne_above : name ≠ ".."
  no_slash : '/' ∉ name.toList

instance (name : String) : Decidable (IsName name) :=
  decidable_of_iff (name ≠ "" ∧ name ≠ "." ∧ name ≠ ".." ∧ '/' ∉ name.toList)
    ⟨fun ⟨hempty, hhere, habove, hslash⟩ => ⟨hempty, hhere, habove, hslash⟩,
      fun h => ⟨h.ne_empty, h.ne_here, h.ne_above, h.no_slash⟩⟩

theorem pieces_of_isName {name : String} (h : IsName name) : pieces name = [name] := by
  have hslash : ∀ c ∈ name.toList, decide (c = '/') = false := by
    rintro c hc
    exact decide_eq_false fun heq => h.no_slash (heq ▸ hc)
  rw [pieces, Text.splitOn_eq_single hslash, List.map_singleton, String.ofList_toList]

theorem pieces_append_slash (before behind : String) :
    pieces (before ++ "/" ++ behind) = pieces before ++ pieces behind := by
  have hslash : (before ++ "/" ++ behind).toList = before.toList ++ '/' :: behind.toList := by simp
  rw [pieces, hslash, Text.splitOn_append_sep (decide_eq_true rfl), List.map_append, pieces, pieces]

theorem fileName?_of_isName {name : String} (h : IsName name) : fileName? name = some name := by
  simp [fileName?, parts, pieces_of_isName h, h.ne_empty, h.ne_here, h.ne_above]

theorem extension?_of_isName {name : String} (h : IsName name) :
    extension? name = (cutAtDot name).2 := by
  rw [extension?, fileName?_of_isName h]
  rfl

/-- A name is cut at its last dot, unless it starts with that dot. -/
theorem cutAtDot_eq_iff {name stem extension : String} :
    cutAtDot name = (stem, some extension) ↔
      stem ≠ "" ∧ '.' ∉ extension.toList ∧ name = stem ++ "." ++ extension := by
  constructor
  · intro h
    rw [cutAtDot] at h
    split at h
    · cases h
    · cases h
    · next after before hbefore hcut =>
      obtain ⟨rfl, hextension⟩ := Prod.mk.inj h
      obtain rfl := Option.some.inj hextension
      obtain ⟨hreverse, hdot⟩ := Text.eq_of_cutFirst hcut
      refine ⟨?_, ?_, ?_⟩
      · intro hempty
        rw [← String.toList_eq_nil_iff, String.toList_ofList, List.reverse_eq_nil_iff] at hempty
        exact hbefore hempty
      · rwa [String.toList_ofList, List.mem_reverse]
      · apply String.toList_injective
        rw [← List.reverse_inj, hreverse]
        simp
  · rintro ⟨hstem, hdot, rfl⟩
    have hreverse : (stem ++ "." ++ extension).toList.reverse =
        extension.toList.reverse ++ '.' :: stem.toList.reverse := by simp
    have hcut := Text.cutFirst_append (mt List.mem_reverse.1 hdot) stem.toList.reverse
    obtain ⟨c, cs, hcs⟩ := List.exists_cons_of_ne_nil
      (mt List.reverse_eq_nil_iff.1 (mt String.toList_eq_nil_iff.1 hstem))
    rw [cutAtDot, hreverse, hcut, hcs]
    dsimp only
    rw [← hcs, List.reverse_reverse, List.reverse_reverse, String.ofList_toList,
      String.ofList_toList]

/-- A name has an extension without dots exactly if it ends in it, behind a dot that is not its first
character. -/
theorem extension?_eq_some_iff {name extension : String} (h : IsName name)
    (hdot : '.' ∉ extension.toList) :
    extension? name = some extension ↔ ∃ stem, stem ≠ "" ∧ name = stem ++ "." ++ extension := by
  rw [extension?_of_isName h]
  constructor
  · intro hextension
    have hcut : cutAtDot name = ((cutAtDot name).1, some extension) := Prod.ext rfl hextension
    obtain ⟨hstem, -, hname⟩ := cutAtDot_eq_iff.1 hcut
    exact ⟨_, hstem, hname⟩
  · rintro ⟨stem, hstem, hname⟩
    rw [cutAtDot_eq_iff.2 ⟨hstem, hdot, hname⟩]

end Files.Path

namespace FileTree

/-! ## Files by their paths -/

/-- The names lead from the tree to a file with these bytes. -/
inductive HasFile : FileTree → (names : List String) → (bytes : List UInt8) → Prop where
  | here {bytes : List UInt8} : HasFile (file bytes) [] bytes
  | inside {es : List (String × FileTree)} {name : String} {t : FileTree} {names : List String}
      {bytes : List UInt8} (hentry : (name, t) ∈ es) (h : HasFile t names bytes) :
      HasFile (folder es) (name :: names) bytes

theorem filesOfEntries_eq_map (es : List (String × FileTree)) :
    filesOfEntries es = es.map fun (name, t) => (name, filesBelow t) := by
  induction es with
  | nil => rfl
  | cons e es ih => rw [filesOfEntries, ih, List.map_cons]

theorem mem_inOrder_iff {listed : List (String × List Located)} {file : Located} :
    file ∈ inOrder listed ↔
      ∃ name files, (name, files) ∈ listed ∧ ∃ below ∈ files, (name :: below.1, below.2) = file := by
  simp only [inOrder, List.mem_flatMap, List.mem_mergeSort, List.mem_map, Prod.exists]

/-- All files of a tree are listed, and nothing else. -/
theorem mem_filesBelow_iff {t : FileTree} {names : List String} {bytes : List UInt8} :
    (names, bytes) ∈ t.filesBelow ↔ t.HasFile names bytes := by
  induction names generalizing t with
  | nil =>
    cases t with
    | file other =>
      rw [filesBelow, List.mem_singleton, Prod.mk.injEq, eq_self, true_and]
      constructor
      · rintro rfl
        exact .here
      · rintro ⟨⟩
        rfl
    | folder es =>
      rw [filesBelow, mem_inOrder_iff]
      exact ⟨nofun, nofun⟩
  | cons name names ih =>
    cases t with
    | file other =>
      rw [filesBelow, List.mem_singleton]
      exact ⟨nofun, nofun⟩
    | folder es =>
      rw [filesBelow, filesOfEntries_eq_map, mem_inOrder_iff]
      constructor
      · rintro ⟨_, files, hmem, below, hbelow, heq⟩
        obtain ⟨⟨entry, t⟩, hentry, heq'⟩ := List.mem_map.1 hmem
        cases heq'
        cases heq
        exact .inside hentry (ih.1 hbelow)
      · intro h
        cases h with
        | @inside _ _ t _ _ hentry h =>
          exact ⟨name, t.filesBelow, List.mem_map.2 ⟨_, hentry, rfl⟩, _, ih.2 h, rfl⟩

/-- The last of the names has a part in front of the extension and the dot. -/
def HasExtension (extension : String) (names : List String) : Prop :=
  ∃ dirs stem, stem ≠ "" ∧ names = dirs ++ [stem ++ "." ++ extension]

theorem hasExtension_append_iff {extension name : String} {dirs : List String} :
    HasExtension extension (dirs ++ [name]) ↔ ∃ stem, stem ≠ "" ∧ name = stem ++ "." ++ extension := by
  constructor
  · rintro ⟨dirs', stem, hstem, heq⟩
    obtain ⟨-, hname⟩ := List.append_inj' heq rfl
    exact ⟨stem, hstem, List.singleton_inj.1 hname⟩
  · rintro ⟨stem, hstem, rfl⟩
    exact ⟨dirs, stem, hstem, rfl⟩

/-- The names on the way to a file in a folder end with that of the file. -/
theorem HasFile.exists_eq_append {es : List (String × FileTree)} {names : List String}
    {bytes : List UInt8} (h : HasFile (folder es) names bytes) :
    ∃ dirs name, names = dirs ++ [name] := by
  cases h with
  | inside _ _ => exact ⟨_, _, (List.dropLast_concat_getLast (List.cons_ne_nil _ _)).symm⟩

/-- The path of a file can be cut into the names on the way to it. -/
theorem pieces_relative {names : List String} (hne : names ≠ [])
    (h : ∀ name ∈ names, Files.Path.IsName name) : Files.Path.pieces (relative names) = names := by
  induction names with
  | nil => exact absurd rfl hne
  | cons name names ih =>
    obtain ⟨hname, hnames⟩ := List.forall_mem_cons.1 h
    cases names with
    | nil => rw [relative, String.intercalate_singleton, Files.Path.pieces_of_isName hname]
    | cons next names =>
      have hrest := ih (List.cons_ne_nil next names) hnames
      rw [relative] at hrest
      rw [relative, String.intercalate_cons_cons, Files.Path.pieces_append_slash, hrest,
        Files.Path.pieces_of_isName hname]
      rfl

/-! ## The order of files -/

/-- Two paths in the order of their names, which are compared by their bytes. -/
def Before : List String → List String → Prop :=
  List.Lex fun name other => Text.bytes name < Text.bytes other

theorem not_before_self (names : List String) : ¬ Before names names := by
  induction names with
  | nil => exact nofun
  | cons name names ih =>
    intro h
    cases h with
    | rel hlt => exact List.lt_irrefl _ hlt
    | cons h => exact ih h

/-- The entries of every folder have names that are possible, and no two have the same one. -/
inductive Proper : FileTree → Prop where
  | file (bytes : List UInt8) : Proper (file bytes)
  | folder {es : List (String × FileTree)} (hnames : ∀ e ∈ es, Files.Path.IsName e.1)
      (hnodup : (es.map (·.1)).Nodup) (h : ∀ e ∈ es, Proper e.2) : Proper (folder es)

/-- Whether a folder is proper can be told by the list of its entries' names. -/
theorem Proper.of_names {es : List (String × FileTree)} (names : List String)
    (hnames : es.map (·.1) = names) (hpossible : ∀ name ∈ names, Files.Path.IsName name)
    (hnodup : names.Nodup) (h : ∀ e ∈ es, Proper e.2) : Proper (FileTree.folder es) := by
  subst hnames
  exact .folder (fun e he => hpossible e.1 (List.mem_map_of_mem he)) hnodup h

theorem lt_of_le_of_ne {s t : String} (hle : s ≤ t) (hne : s ≠ t) : s < t :=
  String.not_le.1 fun hge => hne (String.le_antisymm hle hge)

/-- Entries that are in the order of their names are listed as they stand. -/
theorem inOrder_of_pairwise {listed : List (String × List Located)}
    (h : listed.Pairwise fun a b => a.1 ≤ b.1) :
    inOrder listed = listed.flatMap fun (name, files) =>
      files.map fun (path, bytes) => (name :: path, bytes) := by
  rw [inOrder, List.mergeSort_of_pairwise (h.imp fun hab => decide_eq_true hab)]

theorem pairwise_inOrder {listed : List (String × List Located)}
    (hnodup : (listed.map (·.1)).Nodup)
    (hfiles : ∀ e ∈ listed, e.2.Pairwise fun a b => Before a.1 b.1) :
    (inOrder listed).Pairwise fun a b => Before a.1 b.1 := by
  have hperm := List.mergeSort_perm listed fun a b => decide (a.1 ≤ b.1)
  have hsorted : (listed.mergeSort fun a b => a.1 ≤ b.1).Pairwise fun a b => a.1 ≤ b.1 := by
    have h := @List.pairwise_mergeSort _ (fun a b : String × List Located => decide (a.1 ≤ b.1))
      (fun a b c hab hbc => decide_eq_true
        (String.le_trans (of_decide_eq_true hab) (of_decide_eq_true hbc)))
      (fun a b => by simpa using String.le_total a.1 b.1) listed
    exact h.imp fun hab => of_decide_eq_true hab
  have hdistinct : (listed.mergeSort fun a b => a.1 ≤ b.1).Pairwise fun a b => a.1 ≠ b.1 :=
    List.pairwise_map.1 ((hperm.map _).nodup_iff.2 hnodup)
  rw [inOrder, List.pairwise_flatMap]
  constructor
  · intro e he
    rw [List.pairwise_map]
    exact (hfiles e (hperm.mem_iff.1 he)).imp fun hab => List.Lex.cons hab
  · refine (hsorted.and hdistinct).imp ?_
    rintro e e' ⟨hle, hne⟩ a ha b hb
    obtain ⟨below, -, rfl⟩ := List.mem_map.1 ha
    obtain ⟨below', -, rfl⟩ := List.mem_map.1 hb
    exact List.Lex.rel (Text.bytes_lt_bytes (lt_of_le_of_ne hle hne))

/-- The files of a tree are listed in the order of their paths. -/
theorem Proper.pairwise_filesBelow {t : FileTree} (h : t.Proper) :
    t.filesBelow.Pairwise fun a b => Before a.1 b.1 := by
  induction h with
  | file bytes => exact List.pairwise_singleton _ _
  | @folder es _ hnodup _ ih =>
    rw [filesBelow, filesOfEntries_eq_map]
    apply pairwise_inOrder
    · rwa [List.map_map]
    · intro e he
      obtain ⟨entry, hentry, rfl⟩ := List.mem_map.1 he
      exact ih entry hentry

theorem Proper.isName_of_hasFile {t : FileTree} (h : t.Proper) {names : List String}
    {bytes : List UInt8} (hfile : t.HasFile names bytes) :
    ∀ name ∈ names, Files.Path.IsName name := by
  induction hfile with
  | here => exact List.forall_mem_nil _
  | inside hentry _ ih =>
    cases h with
    | folder hnames _ hbelow =>
      exact List.forall_mem_cons.2 ⟨hnames _ hentry, ih (hbelow _ hentry)⟩

/-- The extension of a file's name can be told from the names on the way to it. -/
theorem Proper.extension?_getLast?_iff {es : List (String × FileTree)}
    (h : (FileTree.folder es).Proper) {extension : String} (hdot : '.' ∉ extension.toList)
    {names : List String} {bytes : List UInt8} (hfile : HasFile (FileTree.folder es) names bytes) :
    names.getLast?.bind Files.Path.extension? = some extension ↔ HasExtension extension names := by
  obtain ⟨dirs, last, rfl⟩ := hfile.exists_eq_append
  have hlast : Files.Path.IsName last :=
    h.isName_of_hasFile hfile last (List.mem_append_right _ (List.mem_singleton_self last))
  rw [List.getLast?_concat, Option.bind_some, hasExtension_append_iff]
  exact Files.Path.extension?_eq_some_iff hlast hdot

/-- A path in a proper tree leads to a proper tree. -/
theorem Proper.follow {above : List FileTree} {here found : FileTree} {parts : List String}
    (habove : ∀ t ∈ above, t.Proper) (hhere : here.Proper)
    (h : FileTree.follow above here parts = .ok found) : found.Proper := by
  induction parts generalizing above here with
  | nil =>
    cases h
    exact hhere
  | cons part rest ih =>
    cases hhere with
    | file bytes => cases h
    | @folder es hnames hnodup hbelow =>
      have hhere : (FileTree.folder es).Proper := .folder hnames hnodup hbelow
      rw [FileTree.follow.eq_def] at h
      dsimp only at h
      split at h
      · exact ih habove hhere h
      · split at h
        · cases above with
          | nil => exact ih habove hhere h
          | cons up above =>
            obtain ⟨hup, habove⟩ := List.forall_mem_cons.1 habove
            exact ih habove hup h
        · split at h
          · cases h
          · next below hlookup =>
            have hmem : (part, below) ∈ es := by
              obtain ⟨before, behind, rfl, -⟩ := List.lookup_eq_some_iff.1 hlookup
              exact List.mem_append_right _ List.mem_cons_self
            exact ih (List.forall_mem_cons.2 ⟨hhere, habove⟩) (hbelow _ hmem) h

theorem Proper.find {t found : FileTree} {path : String} (h : t.Proper)
    (hfind : t.find path = .ok found) : found.Proper := by
  rw [FileTree.find] at hfind
  split at hfind
  · cases hfind
  · exact Proper.follow (List.forall_mem_nil _) h hfind

end FileTree

end RecipePlanner
