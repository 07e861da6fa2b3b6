namespace ZipMount

/-- What a caller may want to do with an entry. -/
inductive AccessMode where
  | read
  | write
  | execute
deriving DecidableEq, Repr

def AccessMode.name : AccessMode → String
  | .read => "Read"
  | .write => "Write"
  | .execute => "Execute"

def AccessMode.names (modes : List AccessMode) : String :=
  "[" ++ String.intercalate ", " (modes.map AccessMode.name) ++ "]"

/-- The modes that still have to be checked, in order and with repeats; `none` if a request is
granted altogether. An empty request asks whether the entry exists, which no grant answers. -/
def AccessMode.remaining (allowed modes : List AccessMode) : Option (List AccessMode) :=
  if modes = [] then some []
  else
    let rest := modes.filter (· ∉ allowed)
    if rest = [] then none else some rest

namespace AccessMode

@[simp] theorem remaining_nil (allowed : List AccessMode) : remaining allowed [] = some [] := rfl

theorem remaining_none_granted {modes : List AccessMode} : remaining [] modes = some modes := by
  by_cases h : modes = []
  · simp [h]
  · have hf : modes.filter (· ∉ ([] : List AccessMode)) = modes := by simp
    simp only [remaining, h, if_false, hf]

theorem remaining_append (a b modes : List AccessMode) :
    (remaining b modes).bind (remaining a) = remaining (a ++ b) modes := by
  unfold remaining
  by_cases h : modes = []
  · simp [h]
  · have hf : (modes.filter (· ∉ b)).filter (· ∉ a) = modes.filter (· ∉ a ++ b) := by
      rw [List.filter_filter]
      exact List.filter_congr fun m _ => by simp [List.mem_append, not_or]
    by_cases hb : modes.filter (· ∉ b) = []
    · have : modes.filter (· ∉ a ++ b) = [] := by rw [← hf, hb]; rfl
      simp only [h, if_false, hb, if_true, Option.bind_none, this]
    · simp only [h, if_false, hb, Option.bind_some, hf]

end AccessMode

end ZipMount
