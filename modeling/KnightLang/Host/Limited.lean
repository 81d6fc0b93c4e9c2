/-
A host whose operations break down: each kind of operation may have a limit, which is the number
of its calls that still reach the host. Any later call fails with the message of the limit and
leaves the host as it is.
-/
import KnightLang.Host.Basic

namespace KnightLang

/-- How many calls of an operation reach the host, and what the failure of any other says. -/
structure Limit where
  remaining : Nat
  message : String
deriving DecidableEq

/-- Counts one call against a limit, or fails with its message. -/
def Limit.take? : Option Limit → Except String (Option Limit)
  | none => .ok none
  | some ⟨0, message⟩ => .error message
  | some ⟨remaining + 1, message⟩ => .ok (some ⟨remaining, message⟩)

/-- A host with a limit for each kind of operation. -/
structure Limited (σ : Type) where
  host : σ
  read : Option Limit := none
  write : Option Limit := none
  shell : Option Limit := none

namespace Limited

variable {σ : Type} [Host σ]

instance : Host (Limited σ) where
  readLine
    | ⟨host, read, write, shell⟩ =>
      match Limit.take? read with
      | .error message => (.error message, ⟨host, read, write, shell⟩)
      | .ok read =>
        let (line, host) := Host.readLine host
        (line, ⟨host, read, write, shell⟩)
  write
    | text, ⟨host, read, write, shell⟩ =>
      match Limit.take? write with
      | .error message => (.error message, ⟨host, read, write, shell⟩)
      | .ok write =>
        let (done, host) := Host.write text host
        (done, ⟨host, read, write, shell⟩)
  shell
    | command, ⟨host, read, write, shell⟩ =>
      match Limit.take? shell with
      | .error message => (.error message, ⟨host, read, write, shell⟩)
      | .ok shell =>
        let (printed, host) := Host.shell command host
        (printed, ⟨host, read, write, shell⟩)

/-! ## Calls within a limit and beyond it -/

theorem readLine_refused {h : Limited σ} {message : String}
    (hr : Limit.take? h.read = .error message) : Host.readLine h = (.error message, h) := by
  simp only [Host.readLine, hr]

theorem readLine_served {h : Limited σ} {read : Option Limit} (hr : Limit.take? h.read = .ok read) :
    Host.readLine h =
      ((Host.readLine h.host).1, { h with host := (Host.readLine h.host).2, read }) := by
  simp only [Host.readLine, hr]

theorem write_refused {h : Limited σ} {text message : String}
    (hw : Limit.take? h.write = .error message) : Host.write text h = (.error message, h) := by
  simp only [Host.write, hw]

theorem write_served {h : Limited σ} {write : Option Limit} (text : String)
    (hw : Limit.take? h.write = .ok write) :
    Host.write text h =
      ((Host.write text h.host).1, { h with host := (Host.write text h.host).2, write }) := by
  simp only [Host.write, hw]

theorem shell_refused {h : Limited σ} {command message : String}
    (hs : Limit.take? h.shell = .error message) : Host.shell command h = (.error message, h) := by
  simp only [Host.shell, hs]

theorem shell_served {h : Limited σ} {shell : Option Limit} (command : String)
    (hs : Limit.take? h.shell = .ok shell) :
    Host.shell command h =
      ((Host.shell command h.host).1, { h with host := (Host.shell command h.host).2, shell }) := by
  simp only [Host.shell, hs]

end Limited

end KnightLang
