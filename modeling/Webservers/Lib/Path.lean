import Mathlib.Data.List.Basic
import Mathlib.Data.Nat.Notation

/-!
# Lexical resolution of paths

A path is a list of moves from a directory: stay, go up, go down into a name. Going up from the
top stays there. `walk` follows the moves, and `summary` says what a list of moves amounts to
from any directory: how many levels it climbs out of it, and which names it then descends
through (`walk_eq`). So a walk from `root` ends below `root` exactly when the names it descends
through begin with the ones it climbed out of (`prefix_walk_iff`).
-/

namespace Webservers
namespace Path

variable {β : Type*}

inductive Move (β : Type*) where
  | stay
  | up
  | down (name : β)
deriving Repr, DecidableEq

def Move.apply (dir : List β) : Move β → List β
  | .stay => dir
  | .up => dir.dropLast
  | .down name => dir ++ [name]

def walk (dir : List β) (moves : List (Move β)) : List β := moves.foldl Move.apply dir

/-- Levels climbed, then names descended through. -/
structure Summary (β : Type*) where
  climbs : ℕ
  names : List β
deriving Repr, DecidableEq

def Summary.add (s : Summary β) : Move β → Summary β
  | .stay => s
  | .up =>
    match s.names with
    | [] => { s with climbs := s.climbs + 1 }
    | _ :: _ => { s with names := s.names.dropLast }
  | .down name => { s with names := s.names ++ [name] }

def summary (moves : List (Move β)) : Summary β := moves.foldl Summary.add ⟨0, []⟩

/-- Where a walk with this summary ends. -/
def Summary.endFrom (s : Summary β) (dir : List β) : List β :=
  dir.take (dir.length - s.climbs) ++ s.names

theorem walk_append (dir : List β) (ms ms' : List (Move β)) :
    walk dir (ms ++ ms') = walk (walk dir ms) ms' :=
  List.foldl_append

theorem Summary.endFrom_add (s : Summary β) (dir : List β) (m : Move β) :
    (s.add m).endFrom dir = m.apply (s.endFrom dir) := by
  cases m with
  | stay => rfl
  | down name => simp [Summary.add, Summary.endFrom, Move.apply]
  | up =>
    simp only [Summary.add, Move.apply]
    split
    case h_1 hnil =>
      simp only [Summary.endFrom, hnil, List.append_nil, List.dropLast_eq_take, List.take_take,
        List.length_take]
      congr 1
      omega
    case h_2 n ns hcons =>
      have hne : s.names ≠ [] := by simp [hcons]
      simp only [Summary.endFrom, List.dropLast_append_of_ne_nil hne]

theorem walk_eq (dir : List β) (moves : List (Move β)) :
    walk dir moves = (summary moves).endFrom dir := by
  -- the summary of the moves so far accounts for the directory reached so far
  have hfold : ∀ (s : Summary β), walk (s.endFrom dir) moves =
      (moves.foldl Summary.add s).endFrom dir := by
    induction moves with
    | nil => exact fun _ => rfl
    | cons m ms ih =>
      intro s
      rw [walk, List.foldl_cons, List.foldl_cons, ← s.endFrom_add]
      exact ih (s.add m)
  have hstart := hfold ⟨0, []⟩
  rwa [Summary.endFrom, Nat.sub_zero, List.take_length, List.append_nil] at hstart

theorem prefix_walk_iff (root : List β) (moves : List (Move β)) :
    root <+: walk root moves ↔
      root.drop (root.length - (summary moves).climbs) <+: (summary moves).names := by
  rw [walk_eq, Summary.endFrom]
  nth_rewrite 1 [← List.take_append_drop (root.length - (summary moves).climbs) root]
  exact List.prefix_append_right_inj _

/-! ## Paths as strings -/

variable {α : Type*} [DecidableEq α]

/-- What a segment of a path means: nothing and a dot stay, two dots go up. -/
def Move.ofSegment (dot : α) (segment : List α) : Move (List α) :=
  if segment = [] ∨ segment = [dot] then .stay
  else if segment = [dot, dot] then .up
  else .down segment

/-- The moves of a path with separator `slash`. -/
def moves (slash dot : α) (path : List α) : List (Move (List α)) :=
  (path.splitOn slash).map (Move.ofSegment dot)

/-- The names that are left of an absolute path. -/
def resolve (slash dot : α) (path : List α) : List (List α) := walk [] (moves slash dot path)

/-- Behind a path, another that starts with a separator. -/
theorem resolve_append (slash dot : α) (path rest : List α) :
    resolve slash dot (path ++ slash :: rest) =
      walk (resolve slash dot path) (moves slash dot (slash :: rest)) := by
  have hsplit : (slash :: rest).splitOn slash = [] :: rest.splitOn slash := by
    simpa using List.splitOn_append_cons_self (a := slash) [] rest
  have hstay : Move.ofSegment dot [] = .stay := if_pos (.inl rfl)
  rw [resolve, moves, List.splitOn_append_cons_self, List.map_append, walk_append, resolve, moves,
    moves, hsplit, List.map_cons, hstay]
  rfl

end Path
end Webservers
