/-
Variables in cells. A name gets a cell of its own when it becomes known, and every variable node of
that name holds this cell from then on, so that evaluation finds a value without looking for the
name. `Cells` keeps which cell belongs to which name, in the order in which the names became known,
and what the cells hold. Neither names nor cells are ever removed.
-/
import KnightLang.Store

namespace KnightLang

/-- What a variable node holds: a name and the cell that the name had when the node was made. -/
structure CellRef where
  name : String
  cell : Nat
deriving DecidableEq

/-- The known names with their cells, and the content of every cell. -/
structure Cells where
  index : List (String × Nat)
  heap : List (Option (Term CellRef))
  nodup_names : (index.map Prod.fst).Nodup := by simp
  nodup_cells : (index.map Prod.snd).Nodup := by simp
  cells_lt : ∀ entry ∈ index, entry.2 < heap.length := by simp

namespace Cells

/-- No names and no cells. -/
def empty : Cells := { index := [], heap := [] }

instance : EmptyCollection Cells := ⟨empty⟩

/-- The cell of a name, if the name is known. -/
def cell? (b : Cells) (x : String) : Option Nat := b.index.lookup x

/-- What a cell holds, if anything. -/
def content (b : Cells) (cell : Nat) : Option (Term CellRef) := (b.heap[cell]?).join

theorem nodup_concat {α : Type} {l : List α} {a : α} (hl : l.Nodup) (ha : a ∉ l) :
    (l ++ [a]).Nodup := by
  rw [List.nodup_append]
  refine ⟨hl, by simp, fun x hx y hy hxy => ha ?_⟩
  rw [hxy, List.mem_singleton.1 hy] at hx
  exact hx

/-- No known name has a cell that the heap does not have yet. -/
theorem length_notMem_cells (b : Cells) : b.heap.length ∉ b.index.map Prod.snd := by
  intro h
  obtain ⟨entry, hentry, hcell⟩ := List.mem_map.1 h
  have := b.cells_lt entry hentry
  omega

/-- Makes a name known: a new one gets a new cell, which is empty. -/
def register (b : Cells) (x : String) : Cells :=
  if h : (b.cell? x).isSome then b
  else
    { index := b.index ++ [(x, b.heap.length)]
      heap := b.heap ++ [none]
      nodup_names := by
        rw [List.map_append]
        exact nodup_concat b.nodup_names fun hx => h ((Store.lookup_isSome _ _).2 hx)
      nodup_cells := by
        rw [List.map_append]
        exact nodup_concat b.nodup_cells b.length_notMem_cells
      cells_lt := by
        intro entry hentry
        rw [List.length_append]
        rcases List.mem_append.1 hentry with hentry | hentry
        · exact Nat.lt_succ_of_lt (b.cells_lt entry hentry)
        · rw [List.mem_singleton.1 hentry]
          exact Nat.lt_succ_self _ }

/-- Puts a value into the cell of a variable node. -/
def assign (b : Cells) (r : CellRef) (value : Term CellRef) : Cells :=
  { b with
    heap := b.heap.set r.cell (some value)
    cells_lt := fun entry hentry => by
      rw [List.length_set]
      exact b.cells_lt entry hentry }

/-- A variable node holds its name and the cell of this name. -/
instance : Bindings Cells CellRef where
  nameOf := CellRef.name
  register := register
  resolve b x := ⟨x, (b.cell? x).getD b.heap.length⟩
  value? b r := b.content r.cell
  assign := assign
  size b := b.index.length

end Cells

end KnightLang
