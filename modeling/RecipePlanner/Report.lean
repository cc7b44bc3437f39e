import RecipePlanner.Catalogue.Folder
import RecipePlanner.RecipeFolder
import RecipePlanner.Route.Reader
import RecipePlanner.Settings

/-!
# Planning reports

A report plans one item from the data below a base folder: it says how many recipes there are, shows
the expansion of the item line by line, and shows a route after one more choice, if there is a route
or a choice.
-/

namespace RecipePlanner

/-- The word in a report for why an expansion ends. -/
def Stop.word : Stop → String
  | .base => "Base"
  | .cycle => "Cycle"
  | .depthLimit => "DepthLimit"

namespace Report

/-- A line with two blanks in front per level. -/
def indented (level : Nat) (line : String) : String :=
  String.ofList (List.replicate (2 * level) ' ') ++ line

/-- A truth value. -/
def flag (b : Bool) : String := if b then "true" else "false"

/-- The line of a node: its name and why it ends, or its identifier. -/
def nodeLine (m : Material) : Option Stop → String
  | some stop => m.name ++ " [" ++ stop.word ++ "]"
  | none => m.name ++ " (" ++ m.id ++ ")"

/-- The line of a branch: its key and score. -/
def branchLine (choice : KeyedRecipe) (score : Score) : String :=
  "> " ++ choice.key ++ " (" ++ toString score.needs ++ " distinct, all base: " ++
    flag score.allBase ++ ")"

/-- The line that counts the ways not shown, if there are any. -/
def moreLines (level more : Nat) : List String :=
  if more > 0 then [indented (level + 1) ("... " ++ toString more ++ " more")] else []

mutual

/-- The lines of an expansion. -/
def expansionLines (level : Nat) : Expansion → List String
  | .node m bs more stop =>
    indented level (nodeLine m stop) :: branchesLines level bs ++ moreLines level more

/-- The lines of branches. -/
def branchesLines (level : Nat) : List Branch → List String
  | [] => []
  | .mk choice score ns :: bs =>
    indented (level + 1) (branchLine choice score) :: needsLines (level + 2) ns ++
      branchesLines level bs

/-- The lines of what a recipe needs. -/
def needsLines (level : Nat) : List Expansion → List String
  | [] => []
  | e :: es => expansionLines level e ++ needsLines level es

end

/-- The lines of a route through an expansion. -/
def routeLines (e : Expansion) (r : Route) : List String :=
  ["path: " ++ r.encode,
    "decisions: " ++ toString r.decisions ++ ", complete: " ++ flag (r.isCompleteFor e)]

/-- What a report is asked for: an item, the text of a route, and a choice written as an item, an
equals sign and a key. -/
structure Request where
  item : String
  route : Option String
  choice : Option String

namespace Request

/-- The route before the choice, none if its text is no route. -/
def startingRoute (q : Request) : Option Route := q.route.bind Route.decode?

/-- The item and the key of the choice, none if there is no equals sign. -/
def chosen (q : Request) : Option (String × String) :=
  (q.choice.bind fun text => Text.cutFirst '=' text.toList).map fun (item, key) =>
    (String.ofList item, String.ofList key)

/-- The route with the choice made. -/
def finalRoute (q : Request) : Option Route :=
  match q.chosen with
  | some (item, key) => some (Route.selectIn q.startingRoute item key)
  | none => q.startingRoute

end Request

/-- Why there is no report. -/
inductive Failure where
  /-- Nothing is asked for. -/
  | noRequest
  | data (fault : DataFault)
  /-- No release has a catalogue. -/
  | noRelease
  deriving DecidableEq, Repr

/-- The exit status of a command that fails so. -/
def Failure.status : Failure → Nat
  | noRequest => 2
  | data _ => 1
  | noRelease => 1

/-- The request that arguments make. -/
def Request.ofArguments : List String → Except Failure Request
  | [] => .error .noRequest
  | item :: rest => .ok ⟨item, rest[0]?, rest[1]?⟩

/-- The lines of a report on the recipes of a release. -/
def lines (q : Request) (limits : Limits) (release : Release) (recipes : List Recipe) :
    List String :=
  let p := Producers.ofList recipes
  let e := Expansion.ofId p q.item limits
  let counts := toString p.size ++ " sources for " ++ toString p.itemCount ++ " items"
  (release.text ++ ": " ++ counts) ::
    expansionLines 0 e ++ (q.finalRoute.map (routeLines e)).getD []

/-- The report on the data below a base folder. -/
def run (t : FileTree) (base : String) (q : Request) : Except Failure (List String) := do
  let settings ← (Settings.load t base).mapError .data
  let releases ← (ReleaseTable.discover t base).mapError .data
  let table ← (ReleaseTable.load t base releases).mapError .data
  match settings.activeRelease table with
  | none => throw .noRelease
  | some release =>
    match table.get? release with
    | none => throw .noRelease
    | some catalogue =>
      let folder := RecipeFolder.ofRelease t base settings.recipeFolder release
      let (recipes, _) ← (RecipeFolder.extract catalogue t release folder).mapError .data
      pure (lines q settings.limits release recipes)

/-- The report that arguments ask for. -/
def ofArguments (t : FileTree) (base : String) (arguments : List String) :
    Except Failure (List String) := do
  run t base (← Request.ofArguments arguments)

/-- A report as it is printed, with a line feed behind every line. -/
def printed (lines : List String) : String := String.join (lines.map (· ++ "\n"))

/-- The lines of a printed report, more than were written where a name holds line breaks. -/
def printedLines (lines : List String) : List String :=
  (Text.lines (printed lines).toList).map String.ofList

end Report

end RecipePlanner
