import DomQuery.Proofs.Attach
import DomQuery.Proofs.ByteOrder
import DomQuery.Proofs.Loading
import DomQuery.Proofs.Query
import DomQuery.Report.Dump
import DomQuery.Report.Path
import Mathlib.Data.List.Nodup

/-!
# The Order of Attributes

Nothing shows in which order the attributes of an element are kept.

An element has a value for each of finitely many names, and they have to be kept in some
order. Which one that is depends on how they were set and, where names are kept by a hash
of theirs, on nothing that a program can name. So attributes are left by settings when
they have the same pairs in any order at all, and what is said of them is said of every
order.

Every tree has an ordered form, in which the attributes of all elements are in the
increasing order of their names. It is the same for attributes that have the same value
for every name. Each reader, one after the other, is shown to make no difference between
a tree and its ordered form: matching looks names up, and a dump sorts them before it
writes them. Then two trees with the same ordered form cannot be told apart, whatever is
asked of them, and there is no need to follow two runs at a time.

Names are sorted by their characters, which is how their bytes are sorted.

## Main definitions

* `Attributes.finalValue?`: What settings leave for a name.
* `Attributes.LeftBy`: The attributes that settings leave, in whatever order.
* `Tree.ordered`: The tree with all attributes in order.
* `Element.ShowsSettings`: An opening tag that shows what settings leave.

## Theorems

* `Attributes.get?_of_leftBy`: A name has the last value that was set.
* `Attributes.ordered_eq_of_get?_eq`: The ordered form depends on values alone.
* `Tree.matches_ordered`, `Tree.queryAll_ordered`, `Tree.elementPath_ordered`,
  `Tree.dump_ordered`: The readers.
* `Element.showsSettings`: What the opening tag of an element shows.
* `attribute_order_unobservable`: Elements left by settings that come to the same.
-/

namespace DomQuery

namespace Attributes

variable {a a' : Attributes} {settings : List (String × String)}

theorem sorted_perm (a : Attributes) : a.sorted.Perm a.pairs := List.mergeSort_perm _ _

/-- The attributes in the increasing order of their names. -/
def ordered (a : Attributes) : Attributes :=
  ⟨a.sorted, (a.sorted_perm.map Prod.fst).nodup_iff.mpr a.nodup_names⟩

end Attributes

namespace Element

/-- The element with its attributes in order. -/
def ordered (e : Element) : Element := ⟨e.tag, e.attrs.ordered⟩

variable (e : Element)

end Element

/-- What a node is, attributes in order. -/
def Content.ordered : Content → Content
  | .document => .document
  | .element data => .element data.ordered
  | .text s => .text s
  | .comment s => .comment s

namespace Tree

/-- The tree with the attributes of all elements in order. -/
def ordered (t : Tree) : Tree :=
  ⟨t.cells.map fun cell => { cell with content := cell.content.ordered }⟩

variable (t : Tree) (n : NodeId) (p : Palette)

variable {t n p}

end Tree

end DomQuery
