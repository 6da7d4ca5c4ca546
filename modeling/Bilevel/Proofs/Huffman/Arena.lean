import Mathlib.Data.Set.Basic
import Bilevel.Proofs.Huffman.Table

/-!
# Code words in an arena

The tree of code words can be kept in one array of nodes, in which the children of a node are given
by their places. A leaf has the place of its line in the list of lines. Nodes are only added behind
the others, and whatever was added stays where it is, so that every place that is kept is one of the
array. Here each access to a node or a line is checked: there is no result if it isn't there.

Two nodes never have a child in common. That is what keeps a change at one node from showing up
somewhere else, and what `Holds` keeps track of: the places that make up a tree.

## Main definitions

* `Arena.build?`, `Arena.decode?` — making an arena and decoding with it, with checked access.
* `Arena.Holds` — the tree that some nodes make up.
* `Table.HasArena` — decoding with a table does what it does with an arena.

## Main results

* `Arena.build?_eq` — an arena can be built whenever the table can, with the same errors, and it
  decodes the same. No check fails.
-/

namespace Bilevel.Huffman

namespace Arena

/-- A node: the places of its children for a zero and a one, or that of a line. -/
inductive Node where
  | branch (children : Bool → Option Nat)
  | leaf (line : Nat)

/-- A branch without children. -/
def bare : Node := .branch fun _ => none

end Arena

/-- The lines of a table, and the nodes of the tree of their code words, its root in front. -/
structure Arena where
  lines : List Line
  nodes : Array Arena.Node

namespace Arena

/-! ## Building and decoding -/

/-- Add a new node as one of the children of the node at place `i`, which has the given ones. -/
def link (nodes : Array Node) (i : Nat) (children : Bool → Option Nat) (bit : Bool) (new : Node) :
    Array Node :=
  (nodes.setIfInBounds i (.branch (Function.update children bit (some nodes.size)))).push new

/-- Add the code word of a line below the node at place `i`. Nodes that are missing on the way are
added, and the last one has to be a new leaf. -/
def insertFrom? (line : Nat) : List Bool → (i : Nat) → Array Node →
    Option (Except DecodeError (Array Node))
  | [], i, nodes => do
    match ← nodes[i]? with
    | .leaf k => if k = line then return .ok nodes else return .error (.huffman .invalidTable)
    | .branch _ => return .error (.huffman .invalidTable)
  | bit :: bits, i, nodes => do
    match ← nodes[i]? with
    | .leaf _ => return .error (.huffman .invalidTable)
    | .branch children =>
      match children bit with
      | some child => insertFrom? line bits child nodes
      | none =>
        let new := if bits = [] then .leaf line else bare
        insertFrom? line bits nodes.size (link nodes i children bit new)

/-- Add the code words of the lines from place `line` on, as far as they are used. -/
def insertAll? : (line : Nat) → List Entry → Array Node → Option (Except DecodeError (Array Node))
  | _, [], nodes => some (.ok nodes)
  | line, entry :: rest, nodes =>
    if entry.line.used then do
      match ← insertFrom? line entry.bits 0 nodes with
      | .ok nodes => insertAll? (line + 1) rest nodes
      | .error e => return .error e
    else insertAll? (line + 1) rest nodes

/-- The arena of the given lines. -/
def build? (lines : List Line) : Option (Except DecodeError Arena) :=
  if hasRoom lines then
    (insertAll? 0 (canonicalCodes lines) #[bare]).map (·.map (⟨lines, ·⟩))
  else some (.error (.huffman .invalidTable))

/-- Read a code word from the node at place `i` on, if it ends within `limit` nodes. -/
def read? (arena : Arena) : (limit i : Nat) → Reader → Option (Except DecodeError (Range × Reader))
  | 0, _, _ => none
  | limit + 1, i, r => do
    match ← arena.nodes[i]? with
    | .leaf line => return .ok ((← arena.lines[line]?).range, r)
    | .branch children =>
      match Reader.readBit r with
      | .error _ => return .error (.huffman .invalidCode)
      | .ok (bit, r) =>
        match children bit with
        | some child => arena.read? limit child r
        | none => return .error (.huffman .invalidCode)

end Arena

/-- Read the place of a value in a range. -/
def Range.readValue (range : Range) : Reading (Option Int) := do
  let place ← Reader.readBits range.bits
  match range.valueAt place with
  | none => return none
  | some n => return some (← checkSigned n)

/-- The tree with a node at its root, which an empty tree doesn't have. -/
def Tree.opened : Tree → Tree
  | .empty => .node .empty .empty
  | tree => tree

namespace Arena

/-- Decode one value. Every node takes a bit, so that there can't be more of them than bits. -/
def decode? (arena : Arena) (r : Reader) : Option (Except DecodeError (Option Int × Reader)) :=
  (arena.read? (r.bitsLeft + 1) 0 r).map (· >>= fun (range, r) => range.readValue r)

/-! ## The tree of an arena -/

/-- The nodes from a place on make up a tree, and `f` has their places. Where there is no place the
tree is empty. -/
inductive Holds (lines : List Line) (nodes : Array Node) :
    Option Nat → Tree → Set Nat → Prop
  | absent : Holds lines nodes none .empty ∅
  | leaf {i k : Nat} {line : Line} (hnode : nodes[i]? = some (.leaf k))
    (hline : lines[k]? = some line) : Holds lines nodes (some i) (.leaf line.range) {i}
  | node {i : Nat} {children : Bool → Option Nat} {t : Bool → Tree} {f : Bool → Set Nat}
    (hnode : nodes[i]? = some (.branch children))
    (hchildren : ∀ b, Holds lines nodes (children b) (t b) (f b)) (hroot : ∀ b, i ∉ f b)
    (hapart : ∀ b, ∀ j ∈ f b, j ∉ f (!b)) :
    Holds lines nodes (some i) (.node (t false) (t true)) {j | j = i ∨ ∃ b, j ∈ f b}

namespace Holds

variable {lines : List Line} {nodes nodes' : Array Node} {place : Option Nat} {tree : Tree}
  {f : Set Nat}

/-- A tree is made up of the same nodes as long as they don't change. -/
theorem frame (h : Holds lines nodes place tree f) (hsame : ∀ j ∈ f, nodes'[j]? = nodes[j]?) :
    Holds lines nodes' place tree f := by
  induction h with
  | absent => exact .absent
  | leaf hnode hline => exact .leaf ((hsame _ rfl).trans hnode) hline
  | node hnode hchildren hroot hapart ih =>
    exact .node ((hsame _ (.inl rfl)).trans hnode)
      (fun b => ih b fun j hj => hsame j (.inr ⟨b, hj⟩)) hroot hapart

theorem lt (h : Holds lines nodes place tree f) {j : Nat} (hj : j ∈ f) : j < nodes.size := by
  induction h with
  | absent => exact absurd hj (Set.notMem_empty j)
  | leaf hnode hline =>
    obtain rfl := hj
    exact (Array.getElem?_eq_some_iff.mp hnode).1
  | node hnode hchildren hroot hapart ih =>
    rcases hj with rfl | ⟨b, hj⟩
    · exact (Array.getElem?_eq_some_iff.mp hnode).1
    · exact ih b hj

theorem eq_empty (h : Holds lines nodes none tree f) : tree = .empty := by
  cases h
  rfl

end Holds

/-! ## Reading -/

theorem bitsLeft_of_readBit {r r' : Reader} {bit : Bool} (h : Reader.readBit r = .ok (bit, r')) :
    r'.bitsLeft < r.bitsLeft := by
  unfold Reader.readBit at h
  split at h
  · cases h
    unfold Reader.bitsLeft
    dsimp only
    omega
  · cases h

/-- Whatever is read in a tree is read in the nodes that make it up. -/
theorem read?_eq (arena : Arena) {place : Option Nat} {tree : Tree} {f : Set Nat}
    (h : Holds arena.lines arena.nodes place tree f) {r : Reader} {limit : Nat}
    (hlimit : r.bitsLeft < limit) :
    place.elim (some (.error (.huffman .invalidCode))) (arena.read? limit · r) =
      some (tree.read r) := by
  induction h generalizing r limit with
  | absent => rfl
  | leaf hnode hline =>
    cases limit with
    | zero => omega
    | succ limit =>
      rw [Option.elim_some, read?, hnode]
      dsimp only [Option.bind_eq_bind, Option.bind_some]
      rw [hline]
      rfl
  | @node i children t f hnode hchildren hroot hapart ih =>
    cases limit with
    | zero => omega
    | succ limit =>
      rw [Option.elim_some, read?, hnode, Tree.read]
      dsimp only [Option.bind_eq_bind, Option.bind_some]
      cases hbit : Reader.readBit r with
      | error e => rfl
      | ok read =>
        obtain ⟨bit, r'⟩ := read
        have hless := bitsLeft_of_readBit hbit
        have hchild := @ih bit r' limit (by omega)
        have hbranch : (if bit then (t true).read r' else (t false).read r') =
            (t bit).read r' := by cases bit <;> rfl
        dsimp only
        rw [hbranch, ← hchild]
        cases children bit <;> rfl

/-! ## Adding code words -/

/-- What adding the code word of a line does to nodes of which those at the places `f` made up a
tree. -/
structure Added (lines : List Line) (line i : Nat) (tree : Tree) (f : Set Nat)
    (nodes nodes' : Array Node) : Prop where
  holds : ∃ f', Holds lines nodes' (some i) tree f' ∧ ∀ j ∈ f', j ∈ f ∨ nodes.size ≤ j
  size_le : nodes.size ≤ nodes'.size
  frame : ∀ j < nodes.size, j ∉ f → nodes'[j]? = nodes[j]?
  leaf : ∀ j k : Nat, nodes'[j]? = some (.leaf k) → k = line ∨ nodes[j]? = some (.leaf k)

/-- A node with children: trees that have no nodes in common. -/
structure Branch (lines : List Line) (nodes : Array Node) (i : Nat) (children : Bool → Option Nat)
    (t : Bool → Tree) (f : Bool → Set Nat) : Prop where
  node : nodes[i]? = some (.branch children)
  holds : ∀ b, Holds lines nodes (children b) (t b) (f b)
  root : ∀ b, i ∉ f b
  apart : ∀ b, ∀ j ∈ f b, j ∉ f (!b)

namespace Branch

variable {lines : List Line} {nodes nodes' : Array Node} {i : Nat}
  {children children' : Bool → Option Nat} {t : Bool → Tree} {f : Bool → Set Nat} {bit : Bool}

theorem lt (h : Branch lines nodes i children t f) : i < nodes.size :=
  (Array.getElem?_eq_some_iff.mp h.node).1

/-- A new tree below one of the children, of nodes that it had before or that are new. -/
theorem replace (h : Branch lines nodes i children t f) {tree : Tree} {f' : Set Nat}
    (hnode : nodes'[i]? = some (.branch children')) (hother : children' (!bit) = children (!bit))
    (hchild : Holds lines nodes' (children' bit) tree f')
    (hf' : ∀ j ∈ f', j ∈ f bit ∨ nodes.size ≤ j)
    (hframe : ∀ j < nodes.size, j ≠ i → j ∉ f bit → nodes'[j]? = nodes[j]?) :
    ∃ f'', Holds lines nodes' (some i)
        (.node (Function.update t bit tree false) (Function.update t bit tree true)) f'' ∧
      ∀ j ∈ f'', (j = i ∨ ∃ b, j ∈ f b) ∨ nodes.size ≤ j := by
  have hi := h.lt
  have hcases : ∀ b, b = bit ∨ b = !bit := by cases bit <;> decide
  have hne : (!bit) ≠ bit := by cases bit <;> decide
  have hsibling : ∀ j ∈ f', j ∉ f (!bit) := by
    intro j hj hmem
    rcases hf' j hj with hj | hj
    · exact h.apart bit j hj hmem
    · exact absurd ((h.holds _).lt hmem) (Nat.not_lt.mpr hj)
  refine ⟨_, .node (f := Function.update f bit f') hnode (fun b => ?_) (fun b => ?_)
    (fun b j hj => ?_), fun j hj => ?_⟩
  · rcases hcases b with rfl | rfl
    · simpa using hchild
    · rw [hother, Function.update_of_ne hne, Function.update_of_ne hne]
      refine (h.holds _).frame fun j hj => hframe j ((h.holds _).lt hj) ?_ ?_
      · rintro rfl
        exact h.root _ hj
      · have := h.apart _ j hj
        rwa [Bool.not_not] at this
  · rcases hcases b with rfl | rfl
    · rw [Function.update_self]
      intro hmem
      rcases hf' i hmem with hmem | hle
      · exact h.root _ hmem
      · omega
    · rw [Function.update_of_ne hne]
      exact h.root _
  · rcases hcases b with rfl | rfl
    · rw [Function.update_self] at hj
      rw [Function.update_of_ne hne]
      exact hsibling j hj
    · rw [Function.update_of_ne hne] at hj
      rw [Bool.not_not, Function.update_self]
      exact fun hmem => hsibling j hmem hj
  · rcases hj with rfl | ⟨b, hj⟩
    · exact .inl (.inl rfl)
    · rcases hcases b with rfl | rfl
      · rw [Function.update_self] at hj
        exact (hf' j hj).imp_left fun hj => .inr ⟨b, hj⟩
      · rw [Function.update_of_ne hne] at hj
        exact .inl (.inr ⟨_, hj⟩)

end Branch
end Arena

theorem Tree.insert_node (range : Range) (t : Bool → Tree) (bit : Bool) (bits : List Bool) :
    (Tree.node (t false) (t true)).insert range (bit :: bits) =
      ((t bit).insert range bits).map fun tree =>
        .node (Function.update t bit tree false) (Function.update t bit tree true) := by
  have htrue : true ≠ false := by decide
  cases bit with
  | true =>
    rw [insert]
    simp only [children, Option.bind_eq_bind, Option.bind_some, Function.update_self,
      Function.update_of_ne htrue.symm]
    cases (t true).insert range bits <;> rfl
  | false =>
    rw [insert]
    simp only [children, Option.bind_eq_bind, Option.bind_some, Bool.false_eq_true, if_false,
      Function.update_self, Function.update_of_ne htrue]
    cases (t false).insert range bits <;> rfl

theorem Tree.insert_opened (range : Range) (tree : Tree) (bit : Bool) (bits : List Bool) :
    tree.opened.insert range (bit :: bits) = tree.insert range (bit :: bits) := by
  cases tree <;> rfl

theorem Tree.read_opened (tree : Tree) (r : Reader) : tree.opened.read r = tree.read r := by
  cases tree with
  | empty =>
    cases hbit : Reader.readBit r <;> simp only [opened, read, hbit, ite_self] <;> rfl
  | _ => rfl

theorem Tree.opened_of_insert {range : Range} {tree tree' : Tree} {bit : Bool} {bits : List Bool}
    (h : tree.insert range (bit :: bits) = some tree') : tree'.opened = tree' := by
  obtain ⟨⟨zero, one⟩, -, h⟩ := Option.bind_eq_some_iff.mp h
  cases bit <;> obtain ⟨below, -, h⟩ := Option.bind_eq_some_iff.mp h <;> cases h <;> rfl

namespace Arena

variable {lines : List Line} {line : Line} {k : Nat}

/-- Adding a code word to a tree and to the nodes that make it up has the same outcome. -/
def Agrees (lines : List Line) (k : Nat) (range : Range) (bits : List Bool) (i : Nat) (tree : Tree)
    (f : Set Nat) (nodes : Array Node) : Prop :=
  (tree.insert range bits = none ∧
    insertFrom? k bits i nodes = some (.error (.huffman .invalidTable))) ∨
  ∃ tree' nodes', tree.insert range bits = some tree' ∧
    insertFrom? k bits i nodes = some (.ok nodes') ∧ Added lines k i tree' f nodes nodes'

namespace Branch

variable {nodes nodes' : Array Node} {i : Nat} {children : Bool → Option Nat} {t : Bool → Tree}
  {f : Bool → Set Nat} {bit : Bool} {range : Range} {bits : List Bool}
  (h : Branch lines nodes i children t f)

include h

theorem getElem?_link (bit : Bool) (new : Node) (j : Nat) : (link nodes i children bit new)[j]? =
    if j = nodes.size then some new
    else if j = i then some (.branch (Function.update children bit (some nodes.size)))
    else nodes[j]? := by
  have hi := h.lt
  rw [link, Array.getElem?_push, Array.size_setIfInBounds, Array.getElem?_setIfInBounds]
  grind

/-- Adding a code word below a new child is adding it below the node that got the child. -/
theorem added_link {new : Node} {tree : Tree} {f' : Set Nat}
    (hadded : Added lines k nodes.size tree f' (link nodes i children bit new) nodes')
    (hf' : ∀ j ∈ f', j = nodes.size) (hnew : ∀ m : Nat, new = .leaf m → m = k) :
    Added lines k i (.node (Function.update t bit tree false) (Function.update t bit tree true))
      {j | j = i ∨ ∃ b, j ∈ f b} nodes nodes' := by
  have hi := h.lt
  have hsize : (link nodes i children bit new).size = nodes.size + 1 := by
    rw [link, Array.size_push, Array.size_setIfInBounds]
  have hold : ∀ j < nodes.size, j ≠ i → nodes'[j]? = nodes[j]? := by
    intro j hj hne
    rw [hadded.frame j (by omega) fun hmem => absurd (hf' j hmem) (by omega), h.getElem?_link,
      if_neg (by omega), if_neg hne]
  have hlinked : nodes'[i]? = some (.branch (Function.update children bit (some nodes.size))) := by
    rw [hadded.frame i (by omega) fun hmem => absurd (hf' i hmem) (by omega), h.getElem?_link,
      if_neg (by omega), if_pos rfl]
  have hne : (!bit) ≠ bit := by cases bit <;> decide
  obtain ⟨g, hholds, hg⟩ := hadded.holds
  refine ⟨h.replace hlinked (Function.update_of_ne hne _ _) (by rwa [Function.update_self])
    (fun j hj => .inr ?_) fun j hj hne _ => hold j hj hne, by have := hadded.size_le; omega,
    fun j hj hmem => hold j hj fun heq => hmem (.inl heq), fun j m hleaf => ?_⟩
  · rcases hg j hj with hj | hj
    · exact (hf' j hj).ge
    · omega
  · rcases hadded.leaf j m hleaf with hm | hleaf
    · exact .inl hm
    · rw [h.getElem?_link] at hleaf
      split at hleaf
      · exact .inl (hnew m (Option.some.inj hleaf))
      · split at hleaf
        · cases hleaf
        · exact .inr hleaf

/-- The code word goes on below a child. -/
theorem agrees_child {child : Nat} (hplace : children bit = some child)
    (hchild : Agrees lines k range bits child (t bit) (f bit) nodes) :
    Agrees lines k range (bit :: bits) i (.node (t false) (t true)) {j | j = i ∨ ∃ b, j ∈ f b}
      nodes := by
  unfold Agrees
  rw [insertFrom?, h.node, Tree.insert_node]
  dsimp only [Option.bind_eq_bind, Option.bind_some]
  rw [hplace]
  dsimp only
  rcases hchild with ⟨hnone, hfails⟩ | ⟨tree', nodes', hsome, hadds, hadded⟩
  · exact .inl ⟨by rw [hnone]; rfl, hfails⟩
  · refine .inr ⟨_, nodes', by rw [hsome]; rfl, hadds, ?_⟩
    obtain ⟨f', hholds, hf'⟩ := hadded.holds
    have hnode' := (hadded.frame i h.lt (h.root bit)).trans h.node
    exact {
      holds := h.replace hnode' rfl (hplace ▸ hholds) hf'
        fun j hj _ hmem => hadded.frame j hj hmem
      size_le := hadded.size_le
      frame := fun j hj hmem => hadded.frame j hj fun hj' => hmem (.inr ⟨bit, hj'⟩)
      leaf := hadded.leaf }

/-- The code word ends in a new child. -/
theorem agrees_leaf (hplace : children bit = none) (hline : lines[k]? = some line) :
    Agrees lines k line.range [bit] i (.node (t false) (t true)) {j | j = i ∨ ∃ b, j ∈ f b}
      nodes := by
  have hchild := h.holds bit
  rw [hplace] at hchild
  have hleaf := (h.getElem?_link bit (.leaf k) nodes.size).trans (if_pos rfl)
  have hadded : Added lines k nodes.size (.leaf line.range) {nodes.size} _ _ :=
    ⟨⟨_, .leaf hleaf hline, fun j hj => .inl hj⟩, le_rfl, fun _ _ _ => rfl, fun _ _ h => .inr h⟩
  refine .inr ⟨_, _, ?_, ?_, h.added_link hadded (fun j hj => hj)
    fun m hm => (Node.leaf.inj hm).symm⟩
  · rw [Tree.insert_node, hchild.eq_empty]
    rfl
  · rw [insertFrom?, h.node]
    dsimp only [Option.bind_eq_bind, Option.bind_some]
    rw [hplace]
    dsimp only
    rw [if_pos rfl, insertFrom?, hleaf]
    dsimp only [Option.bind_eq_bind, Option.bind_some]
    rw [if_pos rfl]
    rfl

/-- The code word goes on below a new child. -/
theorem agrees_new {b : Bool} (hplace : children bit = none)
    (hnew : ∀ j : Nat, nodes[j]? ≠ some (.leaf k))
    (hchild : ∀ {tree f nodes'}, Holds lines nodes' (some nodes.size) tree f →
      (∀ j : Nat, nodes'[j]? ≠ some (.leaf k)) →
        Agrees lines k range (b :: bits) nodes.size tree f nodes') :
    Agrees lines k range (bit :: b :: bits) i (.node (t false) (t true))
      {j | j = i ∨ ∃ b, j ∈ f b} nodes := by
  have hempty := h.holds bit
  rw [hplace] at hempty
  have hget := h.getElem?_link bit bare
  have hbare := (hget nodes.size).trans (if_pos rfl)
  have hopened : Holds lines _ (some nodes.size) Tree.empty.opened _ :=
    .node (t := fun _ => .empty) (f := fun _ => ∅) hbare (fun _ => .absent) (fun _ => id)
      fun _ _ hj => hj.elim
  have hnew' : ∀ j : Nat, (link nodes i children bit bare)[j]? ≠ some (.leaf k) := by
    intro j hj
    rw [hget] at hj
    split at hj
    · cases hj
    · split at hj
      · cases hj
      · exact hnew j hj
  unfold Agrees
  rw [insertFrom?, h.node, Tree.insert_node, hempty.eq_empty, ← Tree.insert_opened]
  dsimp only [Option.bind_eq_bind, Option.bind_some]
  rw [hplace]
  dsimp only
  rw [if_neg (List.cons_ne_nil b bits)]
  rcases hchild hopened hnew' with ⟨hnone, hfails⟩ | ⟨tree', nodes', hsome, hadds, hadded⟩
  · exact .inl ⟨by rw [hnone]; rfl, hfails⟩
  · refine .inr ⟨_, nodes', by rw [hsome]; rfl, hadds,
      h.added_link hadded (fun j hj => ?_) fun m hm => by cases hm⟩
    exact hj.elim id fun ⟨_, hj⟩ => hj.elim

end Branch

/-- Adding the code word of a line to nodes does what adding it to the tree does that they make
up. -/
theorem Holds.agrees (hline : lines[k]? = some line) (bits : List Bool) {i : Nat} {tree : Tree}
    {f : Set Nat} {nodes : Array Node} (h : Holds lines nodes (some i) tree f)
    (hnew : ∀ j : Nat, nodes[j]? ≠ some (.leaf k)) :
    Agrees lines k line.range bits i tree f nodes := by
  induction bits generalizing i tree f nodes with
  | nil =>
    left
    cases h with
    | leaf hnode hline' =>
      refine ⟨rfl, ?_⟩
      rw [insertFrom?, hnode]
      dsimp only [Option.bind_eq_bind, Option.bind_some]
      rw [if_neg (by rintro rfl; exact hnew i hnode)]
      rfl
    | node hnode hchildren hroot hapart =>
      refine ⟨rfl, ?_⟩
      rw [insertFrom?, hnode]
      rfl
  | cons bit bits ih =>
    cases h with
    | leaf hnode hline' =>
      left
      refine ⟨rfl, ?_⟩
      rw [insertFrom?, hnode]
      rfl
    | @node _ children t f hnode hchildren hroot hapart =>
      have hbranch : Branch lines nodes i children t f := ⟨hnode, hchildren, hroot, hapart⟩
      cases hplace : children bit with
      | some child => exact hbranch.agrees_child hplace (ih (hplace ▸ hchildren bit) hnew)
      | none =>
        cases bits with
        | nil => exact hbranch.agrees_leaf hplace hline
        | cons b bits => exact hbranch.agrees_new hplace hnew ih

/-! ## Whole tables -/

/-- The places of the lines that are still to be added. -/
theorem insertAll?_eq (entries : List Entry) {tree : Tree} {f : Set Nat} {nodes : Array Node}
    (hlines : lines.drop k = entries.map (·.line)) (h : Holds lines nodes (some 0) tree.opened f)
    (hleaves : ∀ j m : Nat, nodes[j]? = some (.leaf m) → m < k) :
    (Table.insertAll tree entries = none ∧
      insertAll? k entries nodes = some (.error (.huffman .invalidTable))) ∨
    ∃ tree' nodes' f', Table.insertAll tree entries = some tree' ∧
      insertAll? k entries nodes = some (.ok nodes') ∧
      Holds lines nodes' (some 0) tree'.opened f' := by
  induction entries generalizing k tree f nodes with
  | nil => exact .inr ⟨tree, nodes, f, rfl, rfl, h⟩
  | cons entry entries ih =>
    have hrest : lines.drop (k + 1) = entries.map (·.line) := by
      rw [← List.tail_drop, hlines]
      rfl
    rw [Table.insertAll, insertAll?]
    split
    · next hused =>
      have hline : lines[k]? = some entry.line := by
        rw [← List.head?_drop, hlines]
        rfl
      obtain ⟨bit, bits, hbits⟩ : ∃ bit bits, entry.bits = bit :: bits := by
        obtain ⟨length, hlength⟩ := Nat.exists_eq_succ_of_ne_zero
          (Nat.ne_of_gt (of_decide_eq_true hused))
        exact ⟨_, _, by rw [Entry.bits, hlength, Bits.lowBits]⟩
      have hnew : ∀ j : Nat, nodes[j]? ≠ some (.leaf k) :=
        fun j hj => absurd (hleaves j k hj) (Nat.lt_irrefl k)
      rw [hbits]
      rcases h.agrees hline (bit :: bits) hnew with
        ⟨hnone, hfails⟩ | ⟨tree', nodes', hsome, hadds, hadded⟩
      · rw [Tree.insert_opened] at hnone
        exact .inl ⟨by rw [hnone]; rfl, by rw [hfails]; rfl⟩
      · obtain ⟨f', hholds, -⟩ := hadded.holds
        rw [← Tree.opened_of_insert hsome] at hholds
        rw [Tree.insert_opened] at hsome
        rw [hsome, hadds]
        refine ih hrest hholds fun j m hj => ?_
        rcases hadded.leaf j m hj with rfl | hj
        · exact Nat.lt_succ_self m
        · exact Nat.lt_succ_of_lt (hleaves j m hj)
    · exact ih hrest h fun j m hj => Nat.lt_succ_of_lt (hleaves j m hj)

/-- An arena can be built of the lines whenever their table can, and gives the same error otherwise.
It decodes every value as the table does. No place of a node or a line is out of bounds. -/
theorem build?_eq (lines : List Line) :
    (∃ e, Table.build lines = .error e ∧ build? lines = some (.error e)) ∨
    ∃ table arena, Table.build lines = .ok table ∧ build? lines = some (.ok arena) ∧
      ∀ r, arena.decode? r = some (table.decode r) := by
  unfold Table.build build?
  split
  · have hstart : Holds lines #[bare] (some 0) Tree.empty.opened _ :=
      .node (t := fun _ => .empty) (f := fun _ => ∅) rfl (fun _ => .absent) (fun _ => id)
        fun _ _ hj => hj.elim
    have hleaves : ∀ j m : Nat, #[bare][j]? = some (.leaf m) → m < 0 := by
      intro j m hj
      obtain ⟨hlt, hj⟩ := Array.getElem?_eq_some_iff.mp hj
      obtain rfl : j = 0 := Nat.lt_one_iff.mp hlt
      cases hj
    rcases insertAll?_eq (k := 0) (canonicalCodes lines)
        (Table.map_line_assignCodes _ lines).symm hstart hleaves with
      ⟨hnone, hfails⟩ | ⟨tree, nodes, f, hsome, hadds, hholds⟩
    · exact .inl ⟨_, by dsimp only; rw [hnone], by rw [hfails]; rfl⟩
    · refine .inr ⟨⟨canonicalCodes lines, tree⟩, ⟨lines, nodes⟩, by dsimp only; rw [hsome],
        by rw [hadds]; rfl, fun r => ?_⟩
      have hread := read?_eq ⟨lines, nodes⟩ hholds (Nat.lt_succ_self r.bitsLeft)
      rw [Option.elim_some, Tree.read_opened] at hread
      rw [decode?, hread]
      rfl
  · exact .inl ⟨_, rfl, rfl⟩

end Arena

/-- The table can be kept in an arena: every node and every line that decoding with it comes to is
there. -/
def Table.HasArena (table : Table) : Prop :=
  ∃ lines arena, Arena.build? lines = some (.ok arena) ∧
    ∀ r, arena.decode? r = some (table.decode r)

theorem Table.Built.hasArena {table : Table} (h : table.Built) : table.HasArena := by
  obtain ⟨lines, hlines⟩ := h
  rcases Arena.build?_eq lines with ⟨e, herror, -⟩ | ⟨table', arena, hbuild, harena, hdecode⟩
  · rw [hlines] at herror
    cases herror
  · obtain rfl := Except.ok.inj (hlines.symm.trans hbuild)
    exact ⟨lines, arena, harena, hdecode⟩

end Bilevel.Huffman
