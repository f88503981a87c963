import Lalr.Symbol

/-!
# The stack of a parser

A path is the sequence of states on a stack, from the current state down to the root.  It knows its depth,
the number of states above the root, without counting.  A stack adds one node for each state above the root.

Main statements: pushing raises the depth by one, popping undoes pushing, and the states that are left after
popping are those left on the path alone.
-/

namespace Lalr

/-- The states on a stack. -/
structure Path where
  /-- The current state. -/
  top : Nat
  /-- The states below it, the root last. -/
  below : List Nat := []
  /-- The number of states above the root. -/
  depth : Nat := 0
  /-- The depth counts the states below the top. -/
  depth_eq : depth = below.length := by rfl

namespace Path

/-- Two paths with the same states are equal. -/
@[ext]
theorem ext {p q : Path} (htop : p.top = q.top) (hbelow : p.below = q.below) : p = q := by
  obtain ⟨top, below, depth, hp⟩ := p
  obtain ⟨top', below', depth', hq⟩ := q
  obtain rfl : top = top' := htop
  obtain rfl : below = below' := hbelow
  obtain rfl : depth = depth' := hp.trans hq.symm
  rfl

/-- The path that has only a root. -/
def root (state : Nat) : Path := { top := state }

/-- All the states, the current one first. -/
def states (p : Path) : List Nat := p.top :: p.below

/-- Enters a state. -/
def push (p : Path) (state : Nat) : Path where
  top := state
  below := p.top :: p.below
  depth := p.depth + 1
  depth_eq := by simp [p.depth_eq]

/-- Leaves the current state; the root cannot be left. -/
def pop? (p : Path) : Option Path :=
  match h : p.below with
  | [] => none
  | state :: rest => some
      { top := state, below := rest, depth := p.depth - 1, depth_eq := by simp [p.depth_eq, h] }

/-- Leaves a number of states. -/
def drop? : Nat → Path → Option Path
  | 0, p => some p
  | n + 1, p => p.pop?.bind (drop? n)

@[simp] theorem depth_root (state : Nat) : (root state).depth = 0 := rfl

@[simp] theorem depth_push (p : Path) (state : Nat) : (p.push state).depth = p.depth + 1 := rfl

@[simp] theorem pop?_push (p : Path) (state : Nat) : (p.push state).pop? = some p := rfl

end Path

/-- The states of a parser, with a node for each of them but the root. -/
structure Stack (N : Type) where
  /-- The states. -/
  path : Path
  /-- The nodes, the one of the current state first. -/
  nodes : List N := []
  /-- Each state above the root has a node. -/
  length_nodes : nodes.length = path.below.length := by rfl

/-- One level of a stack. -/
structure Frame (N : Type) where
  /-- The state. -/
  state : Nat
  /-- The number of frames between this one and the root, this one included. -/
  depth : Nat
  /-- The node, unless this is the root. -/
  node : Option N
  /-- The state below, unless this is the root. -/
  parent : Option Nat

namespace Stack

variable {N : Type}

/-- Two stacks with the same states and nodes are equal. -/
@[ext]
theorem ext {s t : Stack N} (hpath : s.path = t.path) (hnodes : s.nodes = t.nodes) : s = t := by
  obtain ⟨path, nodes, hs⟩ := s
  obtain ⟨path', nodes', ht⟩ := t
  obtain rfl : path = path' := hpath
  obtain rfl : nodes = nodes' := hnodes
  rfl

/-- The stack that has only a root. -/
def root (state : Nat) : Stack N := { path := Path.root state }

/-- The current state. -/
def top (s : Stack N) : Nat := s.path.top

/-- The number of frames above the root. -/
def depth (s : Stack N) : Nat := s.path.depth

/-- Whether only the root is left. -/
def isRoot (s : Stack N) : Bool := s.nodes.isEmpty

/-- The state of the root. -/
def rootState (s : Stack N) : Nat := s.path.below.getLastD s.path.top

/-- The nodes, the one next to the root first. -/
def nodesFromRoot (s : Stack N) : List N := s.nodes.reverse

/-- Enters a state with a node. -/
def push (s : Stack N) (node : N) (state : Nat) : Stack N where
  path := s.path.push state
  nodes := node :: s.nodes
  length_nodes := by simp [Path.push, s.length_nodes]

/-- Leaves the current state and hands out its node; the root cannot be left. -/
def pop? (s : Stack N) : Option (N × Stack N) :=
  match hb : s.path.below, hn : s.nodes with
  | state :: below, node :: nodes => some (node,
      { path := { top := state, below, depth := s.path.depth - 1, depth_eq := by simp [s.path.depth_eq, hb] }
        nodes
        length_nodes := by
          have h := s.length_nodes
          rw [hb, hn] at h
          simpa using h })
  | _, _ => none

/-- Leaves a number of states; their nodes are put in front of the given ones, the last one to be left
first. -/
def popInto? : Nat → List N → Stack N → Option (List N × Stack N)
  | 0, children, s => some (children, s)
  | n + 1, children, s =>
    match s.pop? with
    | none => none
    | some (node, t) => popInto? n (node :: children) t

/-- Leaves a number of states and hands out their nodes, the deepest one first. -/
def popMany? (n : Nat) (s : Stack N) : Option (List N × Stack N) := popInto? n [] s

/-- The frames from the current one to the root. -/
def frames (s : Stack N) : List (Frame N) :=
  let nodes := s.nodes.map some ++ [none]
  let parents := s.path.below.map some ++ [none]
  (s.path.states.zip (nodes.zip parents)).mapIdx fun i (state, node, parent) =>
    { state, depth := s.depth - i, node, parent }

@[simp] theorem depth_root (state : Nat) : (root state : Stack N).depth = 0 := rfl

@[simp] theorem depth_push (s : Stack N) (node : N) (state : Nat) :
    (s.push node state).depth = s.depth + 1 := rfl

/-- There are as many nodes as the stack is deep. -/
theorem length_nodes_eq_depth (s : Stack N) : s.nodes.length = s.depth :=
  s.length_nodes.trans s.path.depth_eq.symm

@[simp] theorem pop?_push (s : Stack N) (node : N) (state : Nat) :
    (s.push node state).pop? = some (node, s) := rfl

/-- Popping a stack pops its path. -/
theorem map_path_pop? (s : Stack N) : s.pop?.map (fun r => r.2.path) = s.path.pop? := by
  obtain ⟨⟨top, below, depth, hd⟩, nodes, hn⟩ := s
  cases below with
  | nil => cases nodes <;> rfl
  | cons state below =>
    cases nodes with
    | nil => simp at hn
    | cons node nodes => rfl

/-- Popping several frames of a stack leaves as many states of its path. -/
theorem map_path_popInto? (n : Nat) (children : List N) (s : Stack N) :
    (s.popInto? n children).map (fun r => r.2.path) = s.path.drop? n := by
  induction n generalizing children s with
  | zero => rfl
  | succ n ih =>
    rw [popInto?, Path.drop?, ← map_path_pop?]
    cases s.pop? with
    | none => rfl
    | some r => exact ih _ _

/-- Taking the nodes of a body off a stack leaves the states that dropping as many states leaves. -/
theorem map_path_popMany? (n : Nat) (s : Stack N) :
    (s.popMany? n).map (fun r => r.2.path) = s.path.drop? n :=
  map_path_popInto? n [] s

end Stack

end Lalr
