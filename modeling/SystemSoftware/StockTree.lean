import SystemSoftware.DecimalText
import Mathlib.Data.List.Perm.Basic

/-!
The stock table of the stock server: binary_tree.c over 32-bit ints. A record
with an id that is already there goes to the right of the first one, so `find`
and `modify` only ever meet the first. `print_to_buf` appends to a buffer of
MAXLINE bytes; `none` is an append that would run over its end.
-/
namespace SystemSoftware.StockTree

open DecimalText

abbrev maxline : ℕ := 8192

inductive Status
  | success
  | error
  | nocmd
  | invarg
  | notenougherr
  | nl
  deriving DecidableEq

inductive Stock
  | null
  | node (id count price : Int32) (left right : Stock)
  deriving DecidableEq

def insert : Stock → Int32 → Int32 → Int32 → Stock
  | .null, id, count, price => .node id count price .null .null
  | .node i c p left right, id, count, price =>
    if id < i then .node i c p (insert left id count price) right
    else .node i c p left (insert right id count price)

def find (id : Int32) : Stock → Stock
  | .null => .null
  | .node i c p left right =>
    if id = i then .node i c p left right
    else if i < id then find id right
    else find id left

def setCount (id count : Int32) : Stock → Stock
  | .null => .null
  | .node i c p left right =>
    if id = i then .node i count p left right
    else if i < id then .node i c p left (setCount id count right)
    else .node i c p (setCount id count left) right

def modify (root : Stock) (id count : Int32) : Stock × Status :=
  match find id root with
  | .null => (root, .error)
  | .node _ c _ _ _ =>
    if c + count < 0 then (root, .notenougherr)
    else (setCount id (c + count) root, .success)

def line (id count price : Int32) : Text :=
  printInt id ++ space :: (printInt count ++ space :: (printInt price ++ [newline]))

/-- `strcat` into a buffer of MAXLINE bytes, the terminator included. -/
def strcat (buf s : Text) : Option Text :=
  if buf.length + s.length < maxline then some (buf ++ s) else none

theorem strcat_of_lt {buf s : Text} (h : buf.length + s.length < maxline) :
    strcat buf s = some (buf ++ s) := if_pos h

def printToBuf : Stock → Text → Option (Status × Text)
  | .null, buf => some (.error, buf)
  | .node id count price left right, buf => do
    let buf ← strcat buf (line id count price)
    let (_, buf) ← printToBuf left buf
    let (_, buf) ← printToBuf right buf
    some (.success, buf)

abbrev Record := Int32 × Int32 × Int32

def records : Stock → List Record
  | .null => []
  | .node id count price left right => (id, count, price) :: (records left ++ records right)

def text (t : Stock) : Text := (records t).flatMap fun r => line r.1 r.2.1 r.2.2

variable {t root : Stock} {id count price : Int32}

theorem text_node (left right : Stock) : text (.node id count price left right) =
    line id count price ++ text left ++ text right := by
  simp [text, records]

/-- Printing appends the text of the table, or overflows when that does not fit. -/
theorem printToBuf_eq (t : Stock) : ∀ buf : Text, buf.length < maxline →
    ∃ st, printToBuf t buf =
      if buf.length + (text t).length < maxline then some (st, buf ++ text t) else none := by
  induction t with
  | null =>
    intro buf hbuf
    exact ⟨.error, by simp [printToBuf, text, records, hbuf]⟩
  | node id count price left right ihl ihr =>
    intro buf hbuf
    refine ⟨.success, ?_⟩
    simp only [printToBuf, strcat, text_node, List.length_append]
    by_cases hline : buf.length + (line id count price).length < maxline
    · rw [if_pos hline]
      obtain ⟨st₁, h₁⟩ := ihl (buf ++ line id count price) (by
        rw [List.length_append]
        exact hline)
      simp only [Option.bind_eq_bind, Option.bind_some, h₁, List.length_append]
      by_cases hleft : buf.length + (line id count price).length + (text left).length < maxline
      · obtain ⟨st₂, h₂⟩ := ihr (buf ++ line id count price ++ text left) (by
          simp only [List.length_append]
          exact hleft)
        simp only [if_pos hleft, Option.bind_some, h₂, List.length_append]
        by_cases hright : buf.length + (line id count price).length + (text left).length +
            (text right).length < maxline
        · rw [if_pos hright, if_pos (by omega)]
          simp [List.append_assoc]
        · rw [if_neg hright, if_neg (by omega), Option.bind_none]
      · rw [if_neg hleft, if_neg (by omega), Option.bind_none]
    · rw [if_neg hline, if_neg (by omega)]
      rfl

theorem printToBuf_node {left right : Stock} {buf buf' : Text} {st : Status}
    (h : printToBuf (.node id count price left right) buf = some (st, buf')) : st = .success := by
  simp only [printToBuf, Option.bind_eq_bind, Option.bind_eq_some_iff] at h
  obtain ⟨_, -, _, -, _, -, h⟩ := h
  exact (Prod.mk.inj (Option.some.inj h)).1.symm

/-- `insert` adds one record. -/
theorem records_insert (t : Stock) (id count price : Int32) :
    (records (insert t id count price)).Perm ((id, count, price) :: records t) := by
  induction t with
  | null => exact List.Perm.refl _
  | node i c p left right ihl ihr =>
    unfold insert
    by_cases hlt : id < i
    · rw [if_pos hlt]
      exact ((ihl.append_right _).cons _).trans (List.Perm.swap ..)
    · rw [if_neg hlt]
      have hright := (ihr.append_left (records left)).trans List.perm_middle
      exact (hright.cons _).trans (List.Perm.swap ..)

theorem modify_ne_null (ht : root ≠ .null) : (modify root id count).1 ≠ .null := by
  have hset : ∀ c, setCount id c root ≠ .null := by
    intro c
    cases root with
    | null => exact absurd rfl ht
    | node i c' p left right =>
      unfold setCount
      split
      · exact Stock.noConfusion
      · split <;> exact Stock.noConfusion
  unfold modify
  split
  · exact ht
  · split
    · exact ht
    · exact hset _

end SystemSoftware.StockTree
