import CellTiming.Files.Path

/-! Where the library of a source file goes: below the output directory and a directory
for its cell, at the place the source file has among the others. -/
namespace CellTiming.Files

/-- The directory of a source file, less every occurrence of a given text. -/
def strippedParent (file : String) (strip : Option String) : String :=
  let parent := (parent? file).getD ""
  match strip with
  | some text => String.ofList (Text.without text.toList parent.toList)
  | none => parent

/-- Only names of the source directory are kept, so that none of its segments leads out
of the directory of the cell. -/
def outputDirectory (outdir cell file : String) (strip : Option String) : String :=
  (names (strippedParent file strip)).foldl join (join outdir cell)

end CellTiming.Files
