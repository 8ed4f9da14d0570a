import PageFilters.Filter.Context

/-!
The usual policy: an element may be modified while it is in the tree, unless it or an element around
it is marked as not to be transformed.
-/

namespace PageFilters

namespace Policy

def noTransformNames : List String :=
  ["data-pagespeed-no-transform", "pagespeed_no_transform"]

def isMarked (e : Element) : Bool :=
  noTransformNames.any fun name => e.hasAttribute name

def marks (d : Document) (id : NodeId) : Bool :=
  ((d.element? id).map isMarked).getD false

def usual : Policy := fun d id =>
  d.isAttached id && !(id :: d.ancestors id).any (marks d)

end Policy

end PageFilters
