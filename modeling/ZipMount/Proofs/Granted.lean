import Mathlib.Data.List.Induction
import ZipMount.Proofs.Calls

namespace ZipMount

def Path.grantedAll (p : Path) (sets : List (List AccessMode)) : Path :=
  sets.foldl (fun q allowed => q.granted allowed) p

/-- What answers operations on paths, and what becomes of its state by it. -/
abbrev Service (σ : Type) := Path → Operation → σ → Except Error Answer × σ

def Provider.serve (prov : Provider) : Service World := fun p op w => Call.run ⟨prov, p, op⟩ w

/-- Answers to one path's operations with some modes granted beforehand. What is granted altogether
is not asked for. -/
def Operation.granting {σ : Type} (allowed : List AccessMode)
    (ask : Operation → σ → Except Error Answer × σ) : Operation → σ → Except Error Answer × σ
  | .check modes, x =>
    match AccessMode.remaining allowed modes with
    | some rest => ask (.check rest) x
    | none => (.ok .done, x)
  | op, x => ask op x

namespace Service

variable {σ : Type}

/-- A filter before a service: it takes one proxy off the path. -/
def granting (allowed : List AccessMode) (s : Service σ) : Service σ :=
  fun p op x => Operation.granting allowed (s p.unwrapped) op x

def grantingAll (s : Service σ) (sets : List (List AccessMode)) : Service σ :=
  sets.foldl (fun s allowed => s.granting allowed) s

/-- What the path `q` of `s'` is to the path `p` of `s` with some modes granted: a question for
existence is passed on, the modes granted are taken off every other request, and all other
operations are the same. -/
structure Grants (allowed : List AccessMode) (s : Service σ) (p : Path) (s' : Service σ)
    (q : Path) : Prop where
  presence : ∀ x, s' q (.check []) x = s p (.check []) x
  granted : ∀ modes x, modes ≠ [] → (∀ mode ∈ modes, mode ∈ allowed) →
    s' q (.check modes) x = (.ok .done, x)
  remaining : ∀ modes x, (∃ mode ∈ modes, mode ∉ allowed) →
    s' q (.check modes) x = s p (.check (modes.filter (· ∉ allowed))) x
  passed : ∀ op x, (∀ modes, op ≠ .check modes) → s' q op x = s p op x

end Service

/-- What reads like a path and counts as it. -/
structure Path.Reads (q p : Path) : Prop where
  pathname : q.pathname = p.pathname
  display : q.display = p.display
  fileName : q.fileName? = p.fileName?
  parent : q.parent? = p.parent?
  resolve : ∀ text, q.resolve text = p.resolve text
  same : ∀ r : Path, q.same r = p.same r ∧ r.same q = r.same p
  fingerprint : q.fingerprint = p.fingerprint

/-- A filter's provider is a filter before what the provider does. -/
theorem Provider.serve_granting (allowed : List AccessMode) (prov : Provider) :
    (Provider.granting allowed prov).serve = prov.serve.granting allowed := by
  funext p op w
  cases op with
  | check modes =>
    simp only [serve, Call.run, Provider.check, Service.granting, Operation.granting]
    cases AccessMode.remaining allowed modes with
    | none => rfl
    | some rest => rfl
  | _ => rfl

theorem Operation.granting_nil {σ : Type} (ask : Operation → σ → Except Error Answer × σ) :
    Operation.granting [] ask = ask := by
  funext op x
  cases op with
  | check modes => simp only [Operation.granting, AccessMode.remaining_none_granted]
  | _ => rfl

/-- Two filters grant what either grants. -/
theorem Operation.granting_granting {σ : Type} (a b : List AccessMode)
    (ask : Operation → σ → Except Error Answer × σ) :
    Operation.granting b (Operation.granting a ask) = Operation.granting (a ++ b) ask := by
  funext op x
  cases op with
  | check modes =>
    simp only [Operation.granting, ← AccessMode.remaining_append a b modes]
    cases AccessMode.remaining b modes with
    | none => rfl
    | some rest => rfl
  | _ => rfl

namespace Path

@[simp] theorem provider_granted (allowed : List AccessMode) (p : Path) :
    (p.granted allowed).provider = .granting allowed p.provider := rfl

theorem grantedAll_concat (p : Path) (sets : List (List AccessMode)) (allowed : List AccessMode) :
    p.grantedAll (sets ++ [allowed]) = (p.grantedAll sets).granted allowed := by
  rw [grantedAll, List.foldl_append]
  rfl

/-- The provider of a path with modes granted stands before the path's own. -/
theorem serve_grantedAll (p : Path) (sets : List (List AccessMode)) :
    (p.grantedAll sets).provider.serve = p.provider.serve.grantingAll sets := by
  induction sets using List.reverseRecOn with
  | nil => rfl
  | append_singleton sets allowed ih =>
    rw [grantedAll_concat, provider_granted, Provider.serve_granting, ih,
      Service.grantingAll, Service.grantingAll, List.foldl_append]
    rfl

theorem Reads.refl (p : Path) : p.Reads p :=
  ⟨rfl, rfl, rfl, rfl, fun _ => rfl, fun _ => ⟨rfl, rfl⟩, rfl⟩

theorem Reads.granted {p q : Path} (h : q.Reads p) (allowed : List AccessMode) :
    (q.granted allowed).Reads p :=
  ⟨h.pathname, h.display, h.fileName, h.parent, h.resolve, h.same, h.fingerprint⟩

theorem reads_grantedAll (p : Path) (sets : List (List AccessMode)) :
    (p.grantedAll sets).Reads p := by
  induction sets using List.reverseRecOn with
  | nil => exact Reads.refl p
  | append_singleton sets allowed ih =>
    rw [grantedAll_concat]
    exact ih.granted allowed

end Path

namespace Service

variable {σ : Type}

/-- Every filter takes off just its own proxy, so what is beneath gets the path it serves. -/
theorem grantingAll_grantedAll (s : Service σ) (p : Path) (sets : List (List AccessMode)) :
    s.grantingAll sets (p.grantedAll sets) = Operation.granting sets.flatten (s p) := by
  induction sets using List.reverseRecOn with
  | nil => exact (Operation.granting_nil (s p)).symm
  | append_singleton sets allowed ih =>
    have hs : s.grantingAll (sets ++ [allowed]) = (s.grantingAll sets).granting allowed := by
      rw [grantingAll, List.foldl_append]
      rfl
    rw [hs, Path.grantedAll_concat, List.flatten_append, List.flatten_singleton,
      ← Operation.granting_granting, ← ih]
    rfl

/-- Answers with modes granted beforehand, told apart by what is asked. -/
theorem grants_of_granting {allowed : List AccessMode} {s s' : Service σ} {p q : Path}
    (h : s' q = Operation.granting allowed (s p)) : Grants allowed s p s' q where
  presence x := by rw [h]; rfl
  granted modes x hne hall := by
    have hrest : modes.filter (· ∉ allowed) = [] :=
      List.filter_eq_nil_iff.mpr fun mode hm => by simp [hall mode hm]
    rw [h, Operation.granting, AccessMode.remaining, if_neg hne]
    simp only [hrest, if_true]
  remaining modes x hsome := by
    obtain ⟨mode, hm, hn⟩ := hsome
    have hne : modes ≠ [] := List.ne_nil_of_mem hm
    have hrest : modes.filter (· ∉ allowed) ≠ [] :=
      List.ne_nil_of_mem (List.mem_filter.mpr ⟨hm, by simpa using hn⟩)
    rw [h, Operation.granting, AccessMode.remaining, if_neg hne]
    simp only [hrest, if_false]
  passed op x hop := by
    rw [h]
    cases op with
    | check modes => exact absurd rfl (hop modes)
    | _ => rfl

end Service

/-- Whatever modes are granted to a path by one filter after the other, the path reads, resolves and
compares as before, and every call through its own provider is answered as the provider beneath
answers for the path itself, less the modes that some filter grants. It makes no difference what the
provider beneath is, and what is granted altogether does not reach it. -/
theorem Path.grantedAll_serves (p : Path) (sets : List (List AccessMode)) :
    (p.grantedAll sets).Reads p
      ∧ Service.Grants sets.flatten p.provider.serve p
          (p.grantedAll sets).provider.serve (p.grantedAll sets)
      ∧ ∀ (σ : Type) (s : Service σ),
          Service.Grants sets.flatten s p (s.grantingAll sets) (p.grantedAll sets) := by
  refine ⟨reads_grantedAll p sets, ?_, fun σ s => ?_⟩
  · rw [serve_grantedAll]
    exact Service.grants_of_granting (Service.grantingAll_grantedAll _ p sets)
  · exact Service.grants_of_granting (Service.grantingAll_grantedAll s p sets)

end ZipMount
