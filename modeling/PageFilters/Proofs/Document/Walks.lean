import Mathlib.Logic.Function.Iterate
import PageFilters.Proofs.Document.Writing

/-!
The loops that walk a document. Each keeps a list of the work that waits; it does the first piece
and puts what comes of that before the rest. In a document that can come about every loop ends, and
what it has made by then is a recursion on the tree.
-/

namespace PageFilters

section

variable {α β : Type}

end

namespace Tree

variable {α β : Type} (f : α → β)

mutual

theorem preorder_map : ∀ t : Tree α, (map f t).preorder = t.preorder.map f
  | node label children => by
    rw [map, preorder, preorder, List.map_cons, preorderAll_mapAll children]

theorem preorderAll_mapAll :
    ∀ ts : List (Tree α), preorderAll (mapAll f ts) = (preorderAll ts).map f
  | [] => rfl
  | t :: ts => by
    rw [mapAll, preorderAll, preorderAll, List.map_append, preorder_map t, preorderAll_mapAll ts]

end

end Tree

namespace Document

variable {d : Document} {β : Type}

namespace Linked

end Linked

end Document

end PageFilters
