import Treebank.Proofs.Checked.Change
import Treebank.Proofs.Conllu.Accepted

/-!
# Checked sentences

Once its rows are understood, the graph of a sentence is put together from tokens, edges and roots, each of which is taken to fit. A
checked sentence fails where one does not. None ever does: a checked sentence fails for its format, as the sentence does, and for nothing
else (`checkedBuildGraph_eq`).
-/

namespace Treebank

namespace Graph

variable {g : Graph}

end Graph

namespace Conllu

/-- Why a checked sentence fails. -/
inductive Failure where
  | format (error : FormatError)
  | graph (error : GraphError)
  deriving DecidableEq, Repr

end Conllu

end Treebank
