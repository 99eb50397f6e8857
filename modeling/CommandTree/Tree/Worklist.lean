import CommandTree.Tree.Address
import CommandTree.Tree.Assembly

/-!
Copying and merging with a queue of work in place of recursion. What waits in the queue is a node of the
tree under construction, told by positions, with another node that it is to take in. The first one in
the queue takes in the node itself; what its children are to take in waits at the end of the queue.
-/

namespace CommandTree.Tree

variable {S C M : Type}

mutual
def size : Tree S C M → Nat
  | node _ _ cs => sizeAll cs + 1

def sizeAll : List (Tree S C M) → Nat
  | [] => 0
  | c :: cs => size c + sizeAll cs
end

theorem size_eq (t : Tree S C M) : t.size = sizeAll t.children + 1 := by
  cases t; rfl

theorem sizeAll_append (cs ds : List (Tree S C M)) :
    sizeAll (cs ++ ds) = sizeAll cs + sizeAll ds := by
  induction cs with
  | nil => simp [sizeAll]
  | cons c cs ih => simp [sizeAll, ih, Nat.add_assoc]

theorem sizeAll_le {cs ds : List (Tree S C M)} (h : cs.Sublist ds) : sizeAll cs ≤ sizeAll ds := by
  induction h with
  | slnil => exact Nat.le_refl _
  | cons d _ ih => exact Nat.le_trans ih (Nat.le_add_left _ _)
  | cons_cons d _ ih => exact Nat.add_le_add_left ih _

/-- The node at some positions is to take in another one. -/
structure Job (S C M : Type) where
  way : List Nat
  incoming : Tree S C M

/-- What becomes of a node that takes in another one, and which nodes below that are to be taken in next,
each by the child at some position. -/
structure Round (incoming : Tree S C M) where
  node : Tree S C M
  next : List (Tree S C M × Nat)
  below : (next.map Prod.fst).Sublist incoming.children

/-- The jobs that follow from one at some place. -/
def Round.jobs {incoming : Tree S C M} (r : Round incoming) (way : List Nat) : List (Job S C M) :=
  r.next.map fun x => ⟨way ++ [x.2], x.1⟩

/-- Works off a queue. -/
def workOff (round : Tree S C M → (incoming : Tree S C M) → Round incoming) (t : Tree S C M) :
    List (Job S C M) → Tree S C M
  | [] => t
  | job :: rest =>
    match t.nodeAt? job.way with
    | none => workOff round t rest
    | some target =>
      let r := round target job.incoming
      workOff round (t.modifyAt (fun _ => r.node) job.way) (rest ++ r.jobs job.way)
termination_by jobs => sizeAll (jobs.map Job.incoming)
decreasing_by
  · rw [List.map_cons, sizeAll, size_eq]
    omega
  · have hbelow := sizeAll_le r.below
    have hincoming : (r.jobs job.way).map Job.incoming = r.next.map Prod.fst := by
      rw [Round.jobs, List.map_map]
      rfl
    rw [List.map_append, sizeAll_append, hincoming, List.map_cons, sizeAll, size_eq]
    omega

/-- A copy of a node, made at a step, without the children. -/
def copyAlone (step : Nat) : Tree S C M → Tree S C M
  | node id traits _ => node (step :: id) traits []

/-- Copies the children of a node alone; each copy is to be filled next. -/
def copyRound (step : Nat) (copied original : Tree S C M) : Round original where
  node := node copied.id copied.traits
    (copied.children ++ original.children.map (copyAlone step))
  next := original.children.zipIdx copied.children.length
  below := by simp only [List.zipIdx_map_fst, List.Sublist.refl]

/-- A copy of a tree, made level by level. -/
def clone (step : Nat) (t : Tree S C M) : Tree S C M :=
  workOff (copyRound step) (t.copyAlone step) [⟨[], t⟩]

/-- Takes in nodes one after another among siblings. Where the name is taken the sibling that has it is
to take in the node next, else a copy becomes the last of them. -/
def takeIn (step : Nat) (cs : List (Tree S C M)) :
    List (Tree S C M) → List (Tree S C M) × List (Tree S C M × Nat)
  | [] => (cs, [])
  | c :: rest =>
    match cs.findIdx? fun d => d.name = c.name with
    | none => takeIn step (cs ++ [c.clone step]) rest
    | some i => ((takeIn step cs rest).1, (c, i) :: (takeIn step cs rest).2)

theorem takeIn_below (step : Nat) (cs ds : List (Tree S C M)) :
    ((takeIn step cs ds).2.map Prod.fst).Sublist ds := by
  induction ds generalizing cs with
  | nil => exact .slnil
  | cons d ds ih =>
    rw [takeIn]
    split
    · exact (ih _).cons d
    · exact (ih _).cons_cons d

/-- A node takes over the command of another one, where there is one, and takes in the children. -/
def mergeRound (step : Nat) (target incoming : Tree S C M) : Round incoming where
  node := node target.id { target.traits with command := incoming.command.or target.command }
    (takeIn step target.children incoming.children).1
  next := (takeIn step target.children incoming.children).2
  below := takeIn_below step _ _

/-- Merges a tree into one of the same name, level by level. -/
def merge (step : Nat) (t incoming : Tree S C M) : Tree S C M :=
  workOff (mergeRound step) t [⟨[], incoming⟩]

end CommandTree.Tree
