import FormulaTree.Streams

/-!
# The texts of help and version
-/

namespace FormulaTree.CommandLine

def versionNumber : String := "0.1.0"

/-- The environment variable that names a label dictionary. -/
def labelVariable : String := "FORMULA_OUTLINE_LABELS"

/-- The lines of the help text. -/
def usageLines : List String :=
  [programName ++ " " ++ versionNumber ++ ": make long Excel formulas a little more readable",
   "",
   "Usage: formula-outline [options] 'formula'",
   "       formula-outline [options] < formula.txt",
   "       formula-outline --repl [options]",
   "",
   "Options:",
   "  -l, --lang ja|en         Message and generic label language (default: from LANG)",
   "  -m, --labels MODE        Argument labels: auto, ja1, ja2, en, off (default: auto)",
   "  -t, --label-table FILE   JSON argument label dictionary (or $" ++ labelVariable ++ ")",
   "  -f FILE                  Read the formula from FILE",
   "  --inline                 Print the canonical one-line form",
   "  --html                   Print collapsible HTML markup",
   "  --collapsed              Start with every function block collapsed",
   "  --repl                   Interactive mode (type :help inside)",
   "  -v, --verbose            Debug logging on stderr",
   "  -h, --help               Show this help",
   "",
   "Examples:",
   "  formula-outline '=IF(A1>0,SUM(B1:B3),\"none\")'",
   "  formula-outline -l en -m off --inline '=if(a1>0,1,-1)'",
   "  formula-outline -t labels.json --repl"]

/-- The help text. -/
def usageText : String :=
  String.join (usageLines.map (· ++ "\n"))

/-- The version text. -/
def versionText : String :=
  programName ++ " " ++ versionNumber ++ "\n"

end FormulaTree.CommandLine
