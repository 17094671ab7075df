import BlockCodec.Text.Width

/-!
# Tables drawn with lines

A header and rows of cells in a frame. Every column is as wide as its widest cell, with a space
on both sides; rows are divided by dashed lines, the header from the rows by a double one.
-/

namespace BlockCodec.Text

structure Grid where
  header : List String
  rows : List (List String)
deriving Repr, DecidableEq

/-- What a line across the table is made of. -/
structure Ruling where
  left : String
  dash : String
  crossing : String
  right : String

namespace Grid

def top : Ruling := ⟨"┌", "─", "┬", "┐"⟩

def belowHeader : Ruling := ⟨"╞", "═", "╪", "╡"⟩

def between : Ruling := ⟨"├", "╌", "┼", "┤"⟩

def bottom : Ruling := ⟨"└", "─", "┴", "┘"⟩

/-- The widest of the cells in each column. -/
def widths (grid : Grid) : List Nat :=
  grid.rows.foldl (fun widths row => widths.zipWith max (row.map columns))
    (grid.header.map columns)

def rule (widths : List Nat) (ruling : Ruling) : String :=
  let dashes := widths.map fun width => String.join (List.replicate (width + 2) ruling.dash)
  ruling.left ++ String.intercalate ruling.crossing dashes ++ ruling.right

def line (widths : List Nat) (cells : List String) : String :=
  let padded := widths.zipWith (fun width cell => " " ++ padTo width cell ++ " ") cells
  "│" ++ String.intercalate "┆" padded ++ "│"

def lines (grid : Grid) : List String :=
  let widths := grid.widths
  [rule widths top, line widths grid.header, rule widths belowHeader] ++
    (grid.rows.map (line widths)).intersperse (rule widths between) ++ [rule widths bottom]

def render (grid : Grid) : String := String.intercalate "\n" grid.lines

end Grid

end BlockCodec.Text
