import AppCatalog.Admission.Validation

/-! The log options of the controller manager and the webhook server (internal/pkg/log/zap.go). -/
namespace AppCatalog.Log
open Admission

/-- `Format`: the format's name. -/
abbrev Format := String

def formatJSON : Format := "JSON"

def formatConsole : Format := "Console"

def availableFormats : List Format := [formatJSON, formatConsole]

/-- `Format.Set`: the format the flag stores, or its error. `strings.ToLower` is `String.toLower`,
which lowers ASCII letters only; no other rune lowers to a letter of `json` or `console`, so the
two accept the same values. -/
def Format.set (s : String) : Except String Format :=
  match s.toLower with
  | "json" => .ok formatJSON
  | "console" => .ok formatConsole
  | _ => .error ("invalid format \x27" ++ s ++ "\x27")

/-- `Options`: whether to log at debug level, and the format. -/
structure Options where
  debug : Bool
  format : Format
  deriving DecidableEq, Repr

def newDefaultOptions : Options := ⟨false, formatJSON⟩

/-- `Options.Validate`: the error it returns, if any. -/
def Options.validate (o : Options) : Option String :=
  if o.format ∈ availableFormats then none
  else some ("invalid log-format specified " ++ quote o.format ++ "; available: " ++
    formatList availableFormats)

/-- `flag.Parse` over the `--log-format` values of a command line, in order: the options it
leaves, or the error of the first value the flag rejects. -/
def parseFormats (o : Options) : List String → Except String Options
  | [] => .ok o
  | s :: ss =>
    match Format.set s with
    | .ok f => parseFormats { o with format := f } ss
    | .error e => .error e

theorem validate_eq_none_iff (o : Options) : o.validate = none ↔ o.format ∈ availableFormats := by
  unfold Options.validate
  split_ifs with h <;> simp [h]

/-- The flag stores only an available format. -/
theorem Format.set_mem {s : String} {f : Format} (h : Format.set s = .ok f) : f ∈ availableFormats := by
  unfold Format.set at h
  split at h <;> cases h <;> simp [availableFormats]

theorem newDefaultOptions_validate : newDefaultOptions.validate = none := by
  rw [validate_eq_none_iff]
  exact List.mem_cons_self _ _

/-- Parsing keeps the options valid. -/
theorem parseFormats_preserves (args : List String) {o₀ o : Options} (h₀ : o₀.validate = none)
    (h : parseFormats o₀ args = .ok o) : o.validate = none := by
  induction args generalizing o₀ with
  | nil =>
    cases h
    exact h₀
  | cons s ss ih =>
    unfold parseFormats at h
    split at h
    · rename_i f hf
      exact ih ((validate_eq_none_iff _).mpr (Format.set_mem hf)) h
    · cases h

/-- Neither main calls `Options.Validate`, and neither needs to: from the defaults, whatever
`--log-format` values a command line gives, the options that parsing leaves pass the check. -/
theorem parseFormats_validate (args : List String) {o : Options}
    (h : parseFormats newDefaultOptions args = .ok o) : o.validate = none :=
  parseFormats_preserves args newDefaultOptions_validate h

theorem parseFormats_validate_console :
    parseFormats newDefaultOptions ["console", "JSON"] = .ok ⟨false, formatJSON⟩ ∧
      (⟨false, formatJSON⟩ : Options).validate = none :=
  have h : parseFormats newDefaultOptions ["console", "JSON"] = .ok ⟨false, formatJSON⟩ := by
    simp only [parseFormats, Format.set, String.toLower, String.map_eq]
    rfl
  ⟨h, parseFormats_validate _ h⟩

end AppCatalog.Log
