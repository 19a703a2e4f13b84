import TableStore.Text.Joining

/-!
# Clusters

- a cluster is what a reader takes for one character: a letter with its accents, a syllable, a flag, pictographs held
  together by joiners (the extended grapheme clusters of Unicode);
- reading from the left, it is enough to know how the cluster so far ends (`Tail`) to tell whether the next character
  still belongs to it (`Tail.join?`);
- `clusters` cuts a text into its clusters; together they are the text (`flatten_clusters`), and none is empty
  (`ne_nil_of_mem_clusters`).
-/

namespace TableStore.Text

/-- How a cluster ends, as far as the next character depends on it. -/
inductive Tail where
  | control
  | prepended
  /-- In leading consonants of a syllable. -/
  | leading
  /-- In a vowel of a syllable. -/
  | vowel
  /-- In trailing consonants of a syllable. -/
  | trailing
  /-- In the first letter of a flag. -/
  | regional
  /-- In a pictograph and what extends it. -/
  | pictograph
  /-- In a pictograph, what extends it, and one joiner. -/
  | joined
  /-- In a consonant and what extends it, with a linker among that or not. -/
  | consonant (linked : Bool)
  | other
  deriving DecidableEq

namespace Tail

/-- The end of a cluster of one character. -/
def start : Joining → Tail
  | .control => .control
  | .prepended => .prepended
  | .leading => .leading
  | .vowel | .openSyllable => .vowel
  | .trailing | .closedSyllable => .trailing
  | .regional => .regional
  | .pictograph => .pictograph
  | .consonant => .consonant false
  | .extending | .linker | .nonJoiner | .joiner | .spacing | .other => .other

/-- The end of a cluster after an extending sign. -/
def extended : Tail → Tail
  | .pictograph => .pictograph
  | .consonant linked => .consonant linked
  | _ => .other

/-- The end of a cluster after a linker. -/
def linked : Tail → Tail
  | .consonant _ => .consonant true
  | tail => tail.extended

/-- The end of a cluster after a non-joiner. -/
def parted : Tail → Tail
  | .pictograph => .pictograph
  | _ => .other

/-- The end of a cluster after a joiner. -/
def awaiting : Tail → Tail
  | .pictograph => .joined
  | .consonant linked => .consonant linked
  | _ => .other

/-- The end of a cluster after one more character, if the character belongs to it. -/
def join? : Tail → Joining → Option Tail
  | .control, _ => none
  | _, .control => none
  | tail, .extending => some tail.extended
  | tail, .linker => some tail.linked
  | tail, .nonJoiner => some tail.parted
  | tail, .joiner => some tail.awaiting
  | _, .spacing => some .other
  | .prepended, k => some (start k)
  | .leading, .leading => some .leading
  | .leading, .vowel | .leading, .openSyllable => some .vowel
  | .leading, .closedSyllable => some .trailing
  | .vowel, .vowel => some .vowel
  | .vowel, .trailing => some .trailing
  | .trailing, .trailing => some .trailing
  | .regional, .regional => some .other
  | .joined, .pictograph => some .pictograph
  | .consonant true, .consonant => some (.consonant false)
  | _, _ => none

end Tail

/-- The rest of a cluster that ends so, and the clusters after it. -/
def clustersFrom (tail : Tail) : List Char → List Char × List (List Char)
  | [] => ([], [])
  | c :: cs =>
    match tail.join? (Joining.ofChar c) with
    | some tail =>
      let (rest, more) := clustersFrom tail cs
      (c :: rest, more)
    | none =>
      let (rest, more) := clustersFrom (.start (Joining.ofChar c)) cs
      ([], (c :: rest) :: more)

/-- The clusters of a text. -/
def clusters : List Char → List (List Char)
  | [] => []
  | c :: cs =>
    let (rest, more) := clustersFrom (.start (Joining.ofChar c)) cs
    (c :: rest) :: more

/-! ## Laws -/

theorem flatten_clustersFrom (tail : Tail) (cs : List Char) :
    (clustersFrom tail cs).1 ++ (clustersFrom tail cs).2.flatten = cs := by
  induction cs generalizing tail with
  | nil => rfl
  | cons c cs ih =>
    rw [clustersFrom]
    split
    · simp [ih]
    · simp [ih]

/-- The clusters of a text are the text. -/
theorem flatten_clusters (cs : List Char) : (clusters cs).flatten = cs := by
  cases cs with
  | nil => rfl
  | cons c cs => simp [clusters, flatten_clustersFrom]

theorem ne_nil_of_mem_clustersFrom {tail : Tail} {cs cluster : List Char}
    (h : cluster ∈ (clustersFrom tail cs).2) : cluster ≠ [] := by
  induction cs generalizing tail with
  | nil => simp [clustersFrom] at h
  | cons c cs ih =>
    rw [clustersFrom] at h
    split at h
    · exact ih h
    · rcases List.mem_cons.mp h with rfl | h
      · simp
      · exact ih h

/-- No cluster is empty. -/
theorem ne_nil_of_mem_clusters {cs cluster : List Char} (h : cluster ∈ clusters cs) : cluster ≠ [] := by
  cases cs with
  | nil => simp [clusters] at h
  | cons c cs =>
    rcases List.mem_cons.mp h with rfl | h
    · simp
    · exact ne_nil_of_mem_clustersFrom h

end TableStore.Text
