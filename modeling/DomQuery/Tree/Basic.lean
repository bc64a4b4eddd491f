import DomQuery.Tree.Element

/-!
# Trees

A tree of nodes, all of them in one array, where a node is known by its
position. Node zero is the document; a new node takes the next position.

Each node stores its links: its parent, its children in their order, and its two
neighbours among the children of its parent. The links say the same thing more
than once, so that a walk in any direction is a matter of reading one field.
What keeps the copies in step is that only `attach` writes them. It adds a node
as the last child of another and sets exactly the links that this changes; it
takes nothing away, so a node that already has a place and is attached again
keeps what the new place does not overwrite.

Numbers that are no position are met in two ways. Reading a field of a node that
is not there gives nothing. Attaching is refused, by `appendChild?`, when one of
the nodes to be written is not there.

## Main definitions

* `NodeId`: The position of a node.
* `Content`: What a node is: document, element, text or comment.
* `Cell`: A node with its links.
* `Tree`: The nodes.
* `Tree.alloc`: A new node without a place.
* `Tree.attach`, `Tree.add`: A node, or a new one, made the last child of another.
* `Tree.appendChild?`, `Tree.appendElement?`, `Tree.appendText?`: Attaching with
  the check that the nodes are there.
-/

namespace DomQuery

/-- The position of a node in its tree. -/
abbrev NodeId := Nat

/-- What a node is. -/
inductive Content where
  | document
  | element (data : Element)
  | text (text : String)
  | comment (text : String)
  deriving DecidableEq

/-- A node with its links. -/
structure Cell where
  content : Content
  parent : Option NodeId := none
  children : Array NodeId := #[]
  next : Option NodeId := none
  prev : Option NodeId := none
  deriving DecidableEq

/-- Nodes known by their positions. -/
structure Tree where
  cells : Array Cell
  deriving DecidableEq

namespace Tree

/-- The position of the document. -/
def root : NodeId := 0

/-- The tree that has the document only. -/
def new : Tree := ⟨#[⟨.document, none, #[], none, none⟩]⟩

instance : Inhabited Tree := ⟨new⟩

/-- The number of nodes. -/
@[inline] def size (t : Tree) : Nat := t.cells.size

/-- The node at a position. -/
@[inline] def cell? (t : Tree) (n : NodeId) : Option Cell := t.cells[n]?

/-- What a node is. -/
@[inline] def content? (t : Tree) (n : NodeId) : Option Content := (t.cell? n).map Cell.content

/-- The parent of a node. -/
@[inline] def parent? (t : Tree) (n : NodeId) : Option NodeId := (t.cell? n).bind Cell.parent

/-- The neighbour behind a node. -/
@[inline] def next? (t : Tree) (n : NodeId) : Option NodeId := (t.cell? n).bind Cell.next

/-- The neighbour in front of a node. -/
@[inline] def prev? (t : Tree) (n : NodeId) : Option NodeId := (t.cell? n).bind Cell.prev

/-- The children of a node in their order. -/
def children (t : Tree) (n : NodeId) : List NodeId :=
  match t.cell? n with
  | some cell => cell.children.toList
  | none => []

/-- The first child of a node. -/
def firstChild? (t : Tree) (n : NodeId) : Option NodeId := (t.children n).head?

/-- The last child of a node. -/
def lastChild? (t : Tree) (n : NodeId) : Option NodeId := (t.cell? n).bind (·.children.back?)

/-- The data of a node that is an element. -/
@[inline] def element? (t : Tree) (n : NodeId) : Option Element :=
  match t.content? n with
  | some (.element data) => some data
  | _ => none

/-- A node with the data of an element is that element. -/
theorem content?_of_element? {t : Tree} {n : NodeId} {data : Element}
    (h : t.element? n = some data) : t.content? n = some (.element data) := by
  unfold element? at h
  split at h
  · next found hfound => rw [hfound, Option.some.inj h]
  · simp only [reduceCtorEq] at h

/-- Whether a node is an element. -/
@[inline] def isElement (t : Tree) (n : NodeId) : Bool := (t.element? n).isSome

/-- The text of a node that is a text. -/
def text? (t : Tree) (n : NodeId) : Option String :=
  match t.content? n with
  | some (.text text) => some text
  | _ => none

/-- The id of a node that is an element with an id. -/
def elementId? (t : Tree) (n : NodeId) : Option String := (t.element? n).bind Element.id?

/-- Whether a node is an element with this class. -/
def hasClass (t : Tree) (n : NodeId) (name : String) : Bool :=
  (t.element? n).any (·.hasClass name)

/-- A new node without a place. It takes the position behind the last one. -/
def alloc (t : Tree) (content : Content) : Tree × NodeId :=
  let n := t.size
  (⟨t.cells.push { content }⟩, n)

/-- The tree with one node changed, if it is there. -/
def update (t : Tree) (n : NodeId) (f : Cell → Cell) : Tree := ⟨t.cells.modify n f⟩

/-- The tree in which two nodes are neighbours. -/
def join (t : Tree) (left right : NodeId) : Tree :=
  (t.update left ({ · with next := some right })).update right ({ · with prev := some left })

/-- A node made the last child of another. The two learn of each other, and so do
    the node and the child that was last before. -/
def attach (t : Tree) (parent child : NodeId) : Tree :=
  let last := t.lastChild? parent
  let t := t.update parent fun cell => { cell with children := cell.children.push child }
  let t := t.update child ({ · with parent := some parent })
  match last with
  | some last => t.join last child
  | none => t

/-- A new node as the last child of another. -/
def add (t : Tree) (parent : NodeId) (content : Content) : Tree × NodeId :=
  let (t, n) := t.alloc content
  (t.attach parent n, n)

/-- Whether attaching would write to nodes only that are there. -/
def canAttach (t : Tree) (parent child : NodeId) : Bool :=
  parent < t.size && child < t.size && (t.lastChild? parent).all (· < t.size)

/-- A node made the last child of another, refused when a node is not there. -/
def appendChild? (t : Tree) (parent child : NodeId) : Option Tree :=
  if t.canAttach parent child then some (t.attach parent child) else none

/-- A new node as the last child of another, refused when that is not there.
    The new node is there before the check, so it can be named as its own
    parent. -/
def append? (t : Tree) (parent : NodeId) (content : Content) : Option (Tree × NodeId) :=
  let (t, n) := t.alloc content
  (t.appendChild? parent n).map (·, n)

/-- A new element as the last child of a node. -/
def appendElement? (t : Tree) (parent : NodeId) (data : Element) : Option (Tree × NodeId) :=
  t.append? parent (.element data)

/-- A new text as the last child of a node. -/
def appendText? (t : Tree) (parent : NodeId) (text : String) : Option (Tree × NodeId) :=
  t.append? parent (.text text)

end Tree

end DomQuery
