import TableStore.Text.Cluster
import TableStore.Text.Utf8

/-!
# Typed lines

- a line may hold backspaces, which stand for keys that were pressed while it was typed: each takes back the cluster
  before it, and one with nothing before it does nothing (`typed?`);
- the size of a cluster is kept in one byte, so of a cluster of 256 bytes or more only its size modulo 256 is taken
  back, from its end; where that would cut a character the line cannot be taken;
- a line without backspaces stands as it is (`typed?_of_no_backspace`).
-/

namespace TableStore.Shell

open Text

/-- What has been typed of a line. -/
structure Typed where
  /-- The characters, the last one first. -/
  text : List Char := []
  /-- For each cluster, the last one first, how many bytes a backspace takes back. -/
  sizes : List Nat := []

namespace Typed

/-- The backspace. -/
def backspace : Char := '\x08'

/-- A cluster is typed. -/
def add (t : Typed) (cluster : List Char) : Typed where
  text := cluster.reverse ++ t.text
  sizes := byteLength cluster % 256 :: t.sizes

/-- The last cluster is taken back. -/
def takeBack? (t : Typed) : Option Typed :=
  match t.sizes with
  | [] => some t
  | n :: sizes => (dropBytes? n t.text).map fun text => { text, sizes }

/-- A key is pressed: a backspace, or one that gives a cluster. -/
def press? (t : Typed) (cluster : List Char) : Option Typed :=
  if cluster = [backspace] then t.takeBack? else some (t.add cluster)

end Typed

/-- The line that was typed; there is none if a backspace cuts a character. -/
def typed? (line : List Char) : Option (List Char) :=
  ((clusters line).foldlM Typed.press? {}).map fun t => t.text.reverse

/-! ## Laws -/

theorem foldlM_press?_text {cs : List (List Char)} (h : [Typed.backspace] ∉ cs) (t : Typed) :
    (cs.foldlM Typed.press? t).map Typed.text = some (cs.flatten.reverse ++ t.text) := by
  induction cs generalizing t with
  | nil => rfl
  | cons c cs ih =>
    rw [List.mem_cons, not_or] at h
    rw [List.foldlM_cons, Typed.press?, if_neg (Ne.symm h.1)]
    change ((cs.foldlM Typed.press? (t.add c)).map Typed.text) = _
    rw [ih h.2]
    simp [Typed.add]

/-- A line without backspaces stands as it is. -/
theorem typed?_of_no_backspace {line : List Char} (h : Typed.backspace ∉ line) : typed? line = some line := by
  have none_typed : [Typed.backspace] ∉ clusters line := fun mem =>
    h (by rw [← flatten_clusters line]; exact List.mem_flatten.mpr ⟨_, mem, List.mem_singleton_self _⟩)
  have text := foldlM_press?_text none_typed {}
  rw [flatten_clusters, List.append_nil] at text
  obtain ⟨t, run, ends⟩ := Option.map_eq_some_iff.mp text
  rw [typed?, run, Option.map_some, ends, List.reverse_reverse]

end TableStore.Shell
