import Kraken.Json.Decode

/-!
# `closers.Close`

`Close` closes an `io.Closer` and logs a failure: at debug level when the error's text is
one of two spellings of "file already closed", at error level otherwise. Deferred closes
often close an `*os.File` a second time; its `Close` then reports
`close <name>: file already closed`, which is neither spelling, whatever the file's name.
So every second close of a file is logged as a failure.
-/

namespace Kraken.Closers

/-- The levels `Close` logs at. -/
inductive Level where
  | debug
  | error
  deriving DecidableEq, Repr

/-- A log entry: its level, its message and the text of its `zap.Error` field. -/
structure Entry where
  level : Level
  msg : String
  err : String
  deriving DecidableEq, Repr

/-- `Close`, given what the closer's `Close` method returns (`none` for a nil closer);
the result is what it logs. -/
def close : Option (Option GoError) → List Entry
  | none => []
  | some none => []
  | some (some err) =>
      let errMsg := err.msg
      if errMsg = "file already closed" ∨ errMsg = "close: file already closed" then
        [⟨.debug, "attempted to close already closed file (this is usually harmless)", errMsg⟩]
      else
        [⟨.error, "failed to close a closer", errMsg⟩]

/-- An `*os.File` as its `Close` method sees it: its name, and whether it is closed. Its
descriptor's `close(2)` succeeds; a failing one, which Go reports as `close <name>: <errno>`
and `Close` logs at error level, is left out. -/
structure File where
  name : String
  closed : Bool
  deriving DecidableEq, Repr

/-- The text of `&PathError{Op: "close", Path: name, Err: ErrClosed}`. -/
def closedFileError (name : String) : String := "close " ++ name ++ ": " ++ "file already closed"

/-- `(*os.File).Close`: the first call closes the file, a later one fails. -/
def File.close (f : File) : File × Option GoError :=
  if f.closed then (f, some (.text (closedFileError f.name)))
  else ({ f with closed := true }, none)

/-- `Close(f)` on an `*os.File`: the file afterwards, and what is logged. -/
def closeFile (f : File) : File × List Entry :=
  (f.close.1, close (some f.close.2))

/-- `n` calls of `Close(f)` on one file, and everything they log. -/
def closeFileTimes : Nat → File → File × List Entry
  | 0, f => (f, [])
  | n + 1, f =>
      let (f', log) := closeFile f
      let (f'', log') := closeFileTimes n f'
      (f'', log ++ log')

/-- What `Close` logs when a file is closed again. -/
def reclosed (name : String) : Entry := ⟨.error, "failed to close a closer", closedFileError name⟩

/-- The error of a second close starts `close ` and so is neither text `Close` treats as
harmless. -/
theorem closedFileError_ne (name : String) :
    closedFileError name ≠ "file already closed" ∧
      closedFileError name ≠ "close: file already closed" := by
  have hpre : ∀ s, closedFileError name = s → "close ".data = s.data.take 6 := by
    rintro s rfl
    simp only [closedFileError, String.data_append, List.append_assoc]
    exact (List.take_left' rfl).symm
  exact ⟨fun h => absurd (hpre _ h) (by decide), fun h => absurd (hpre _ h) (by decide)⟩

theorem closeFile_eq (f : File) :
    closeFile f = ({ f with closed := true }, if f.closed then [reclosed f.name] else []) := by
  obtain ⟨name, closed⟩ := f
  cases closed with
  | false => rfl
  | true =>
      have h := closedFileError_ne name
      simp [closeFile, File.close, close, GoError.msg, h.1, h.2, reclosed]

/-- Closing a file that is already closed, again and again. -/
theorem closeFileTimes_of_closed {f : File} (hf : f.closed = true) (n : Nat) :
    closeFileTimes n f = (f, List.replicate n (reclosed f.name)) := by
  induction n with
  | zero => rfl
  | succ n ih =>
      have hf' : { f with closed := true } = f := by cases f; simp_all
      simp only [closeFileTimes, closeFile_eq, hf, hf', ih, if_true]
      rfl

/-- However often a file is closed, it ends closed and every close after the first logs
the same entry at error level; nothing is ever logged at debug level. -/
theorem closeFileTimes_logs_every_reclose (f : File) (n : Nat) :
    closeFileTimes (n + 1) f =
      ({ f with closed := true },
        List.replicate (if f.closed then n + 1 else n) (reclosed f.name)) := by
  have h : closeFileTimes n { f with closed := true } =
      ({ f with closed := true }, List.replicate n (reclosed f.name)) :=
    closeFileTimes_of_closed rfl n
  simp only [closeFileTimes, closeFile_eq, h]
  cases f.closed <;> rfl

end Kraken.Closers
