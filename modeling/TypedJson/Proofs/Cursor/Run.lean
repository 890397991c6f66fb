import Mathlib.Control.Monad.Basic
import TypedJson.Proofs.Cursor.Container

/-! Runs of calls on a reader, which go on whatever fails. A failed call leaves its reader wherever
it got to, so nothing is asked of a run but that every call is one that may be made there. -/
namespace TypedJson.Reader

/-- A call on a reader, with its arguments. -/
inductive Call where
  | boolean
  | integer (type : IntegerType)
  | real
  | string
  | binary (width : Nat)
  | enumeration (names : List String)
  | openArray
  | arrayEnds (count : Nat)
  | closeArray
  | openObject
  | key (names : List String) (count : Nat)
  | closeObject
  | skip
  | finish
  /-- Fails for a cause that the caller has found. -/
  | report (cause : Cause)
deriving DecidableEq, Repr

namespace Call

/-- What a call answers with if it does not fail. -/
@[reducible] def Answer : Call → Type
  | boolean => Bool
  | integer type => BoundedInt type
  | real => Binary64
  | string => String
  | binary width => Vector UInt8 width
  | enumeration _ => Nat
  | arrayEnds _ => Bool
  | key _ _ => Option Nat
  | _ => Unit

variable (document : List UInt8) (options : Options)

def read : (call : Call) → Read call.Answer
  | boolean => Reader.boolean
  | integer type => Reader.integer type
  | real => Reader.real
  | string => Reader.string
  | binary width => Reader.binary width
  | enumeration names => Reader.enumeration names
  | openArray => Reader.openArray options.depthLimit
  | arrayEnds count => Reader.arrayEnds count
  | closeArray => Reader.closeArray
  | openObject => Reader.openObject options.depthLimit
  | key names count => Reader.key options.depthLimit names count
  | closeObject => Reader.closeObject
  | skip => Reader.skip options.depthLimit
  | finish => Reader.finish options
  | report cause => Reader.fail cause

/-- The call on a cursor, with every access checked. -/
def guarded : (call : Call) → Guarded call.Answer
  | boolean => Cursor.boolean document
  | integer type => Cursor.integer document type
  | real => Cursor.real document
  | string => Cursor.string document
  | binary width => Cursor.binary document width
  | enumeration names => Cursor.enumeration document names
  | openArray => Cursor.openArray document options.depthLimit
  | arrayEnds count => Cursor.arrayEnds document count
  | closeArray => Cursor.leave
  | openObject => Cursor.openObject document options.depthLimit
  | key names count => Cursor.key document options.depthLimit names count
  | closeObject => Cursor.leave
  | skip => Cursor.skip document options.depthLimit
  | finish => Cursor.finish document options
  | report cause => Cursor.fail cause

/-- What a call answers or fails with, and the reader after it. -/
def perform (call : Call) (reader : Reader) : Except Error call.Answer × Reader :=
  match (call.read options).run reader with
  | .ok answer after => (.ok answer, after)
  | .error error after => (.error error, after)

/-- What a guarded call answers or fails with, and the cursor after it, unless there is a breach. -/
def performGuarded (call : Call) (cursor : Cursor) :
    Except Breach (Except Error call.Answer × Cursor) :=
  match (call.guarded document options).run cursor with
  | .ok answer after => .ok (.ok answer, after)
  | .error (.error error) after => .ok (.error error, after)
  | .error (.breach breach) _ => .error breach

/-- Whether a call may be made: only an open container can be closed, and the members counted by
the caller have to leave room for those that are skipped. -/
def IsPermitted (reader : Reader) : Call → Prop
  | closeArray | closeObject => 0 < reader.depth
  | key _ count => count + document.length < IntegerType.usize.count
  | _ => True

end Call

variable (document : List UInt8) (options : Options)

/-- The reader after a run of calls, whether they fail or not. -/
def afterAll (calls : List Call) (reader : Reader) : Reader :=
  calls.foldl (fun reader call => (call.perform options reader).2) reader

/-- The cursor after a run of guarded calls, whether they fail or not, unless there is a breach. -/
def afterAllGuarded (calls : List Call) (cursor : Cursor) : Except Breach Cursor :=
  calls.foldlM (fun cursor call => return (← call.performGuarded document options cursor).2) cursor

/-- Whether every call of a run may be made where it is made. -/
def ArePermitted : List Call → Reader → Prop
  | [], _ => True
  | call :: calls, reader =>
    call.IsPermitted document reader ∧ ArePermitted calls (call.perform options reader).2

/-- The place of a reader in its document. -/
def cursor (reader : Reader) : Cursor := ⟨reader.offset, reader.depth⟩

variable {document options} {call : Call} {calls : List Call} {before : Cursor}

/-- The cursor of every call tracks its reader. -/
theorem Call.tracks (options : Options) (bounds : before.InBounds document)
    (fits : document.length < IntegerType.usize.count)
    (permitted : call.IsPermitted document (before.reader document)) :
    Cursor.Tracks document before (fun _ _ => True) ((call.guarded document options).run before)
      ((call.read options).run (before.reader document)) := by
  cases call with
  | boolean => exact Cursor.boolean_tracks bounds
  | integer type => exact Cursor.integer_tracks bounds type
  | real => exact Cursor.real_tracks bounds
  | string => exact Cursor.string_tracks bounds
  | binary width => exact Cursor.binary_tracks bounds width
  | enumeration names => exact Cursor.enumeration_tracks bounds names
  | openArray | openObject => exact Cursor.opens_tracks bounds fits
  | arrayEnds count => exact (Cursor.arrayEnds_tracks bounds).imp fun _ _ _ _ => trivial
  | closeArray | closeObject =>
    exact (Cursor.leave_tracks bounds permitted).imp fun _ _ _ _ => trivial
  | key names count => exact (Cursor.key_tracks bounds permitted).imp fun _ _ _ _ => trivial
  | skip => exact (Cursor.skip_tracks fits bounds rfl).imp fun _ _ _ _ => trivial
  | finish => exact Cursor.finish_tracks bounds
  | report cause => exact Cursor.fail_tracks bounds

/-- A permitted call is made without a breach, and with the answer of the reader's call. -/
theorem Call.performGuarded_ok (options : Options) (bounds : before.InBounds document)
    (fits : document.length < IntegerType.usize.count)
    (permitted : call.IsPermitted document (before.reader document)) :
    ∃ last, call.performGuarded document options before =
        .ok ((call.perform options (before.reader document)).1, last) ∧
      (call.perform options (before.reader document)).2 = last.reader document ∧
      Cursor.Later document before last ∧
      ∀ error, (call.perform options (before.reader document)).1 = .error error →
        before.position ≤ error.offset ∧ error.offset ≤ document.length := by
  have tracks := Call.tracks options bounds fits permitted
  rw [performGuarded, perform]
  revert tracks
  generalize (call.guarded document options).run before = result,
    (call.read options).run (before.reader document) = result'
  intro tracks
  cases tracks with
  | @ok answer last later holds => exact ⟨last, rfl, rfl, later, nofun⟩
  | @error error last later low high =>
    refine ⟨last, rfl, rfl, later, ?_⟩
    rintro _ ⟨⟩
    exact ⟨low, high⟩

theorem afterAllGuarded_ok (bounds : before.InBounds document)
    (fits : document.length < IntegerType.usize.count)
    (permitted : ArePermitted document options calls (before.reader document)) :
    ∃ last, afterAllGuarded document options calls before = .ok last ∧
      afterAll options calls (before.reader document) = last.reader document ∧
      Cursor.Later document before last := by
  induction calls generalizing before with
  | nil => exact ⟨before, rfl, rfl, bounds.later⟩
  | cons call calls ih =>
    obtain ⟨permitted, following⟩ := permitted
    obtain ⟨middle, performed, same, later, _⟩ :=
      Call.performGuarded_ok options bounds fits permitted
    rw [same] at following
    obtain ⟨last, run, same', later'⟩ := ih later.toInBounds following
    refine ⟨last, ?_, ?_, later.trans later'⟩
    · rw [afterAllGuarded, List.foldlM_cons, performed]
      exact run
    · rw [afterAll, List.foldl_cons, same]
      exact same'

theorem arePermitted_append {more : List Call} {reader : Reader} :
    ArePermitted document options (calls ++ more) reader ↔
      ArePermitted document options calls reader ∧
        ArePermitted document options more (afterAll options calls reader) := by
  induction calls generalizing reader with
  | nil => exact (iff_of_eq (true_and _)).symm
  | cons call calls ih =>
    rw [List.cons_append, ArePermitted, ArePermitted, ih, and_assoc]
    rfl

/-- Whatever is called on a reader, and whatever failed before, every access is in bounds: guarded
calls meet no breach, answer or fail as the calls of the reader do, and leave the same place. The
offset never decreases and stays in the document, no more containers are open than bytes were read,
and an error lies between the place before its call and the end of the document. A document is held
in memory, so a machine word can count its bytes. -/
theorem calls_in_bounds (document : List UInt8) (options : Options) (calls : List Call)
    (call : Call) (fits : document.length < IntegerType.usize.count)
    (permitted : ArePermitted document options (calls ++ [call]) (ofBytes document)) :
    let before := afterAll options calls (ofBytes document)
    let answer := (call.perform options before).1
    let after := (call.perform options before).2
    afterAllGuarded document options calls (ofBytes document).cursor = .ok before.cursor ∧
      call.performGuarded document options before.cursor = .ok (answer, after.cursor) ∧
      before.offset ≤ after.offset ∧ after.offset ≤ document.length ∧ after.depth ≤ after.offset ∧
      ∀ error, answer = .error error →
        before.offset ≤ error.offset ∧ error.offset ≤ document.length := by
  intro before answer after
  have bounds : Cursor.InBounds document ⟨0, 0⟩ := ⟨Nat.zero_le _, Nat.le_refl _⟩
  obtain ⟨permitted, permitted', _⟩ := arePermitted_append.mp permitted
  obtain ⟨middle, run, same, later⟩ := afterAllGuarded_ok bounds fits permitted
  change before = middle.reader document at same
  change call.IsPermitted document before at permitted'
  rw [same] at permitted'
  obtain ⟨last, performed, same', later', errors⟩ :=
    Call.performGuarded_ok options later.toInBounds fits permitted'
  rw [← same] at performed same' errors
  change after = last.reader document at same'
  rw [same', same]
  exact ⟨run, performed, later'.position_le_position, later'.position_le, later'.depth_le, errors⟩

/-- A string is refused where another value stands, and that value is skipped; the string after it
is cut off inside a surrogate pair. -/
theorem calls_in_bounds_resumed :
    afterAllGuarded (Utf8.encode "[true,\"\\ud83d".toList) {}
        [.openArray, .arrayEnds 0, .string, .skip, .arrayEnds 1] ⟨0, 0⟩ = .ok ⟨6, 1⟩ ∧
      Call.performGuarded (Utf8.encode "[true,\"\\ud83d".toList) {} .string ⟨6, 1⟩ =
        .ok (.error ⟨SyntaxError.invalidCodeUnit 0xd83d, none, 7⟩, ⟨6, 1⟩) := by
  have safe := calls_in_bounds (Utf8.encode "[true,\"\\ud83d".toList) {}
    [.openArray, .arrayEnds 0, .string, .skip, .arrayEnds 1] .string (by decide)
    ⟨trivial, trivial, trivial, trivial, trivial, trivial, trivial⟩
  have place : afterAll {} [.openArray, .arrayEnds 0, .string, .skip, .arrayEnds 1]
      (ofBytes (Utf8.encode "[true,\"\\ud83d".toList)) =
        ⟨Utf8.encode "\"\\ud83d".toList, 6, 1⟩ := by decide +kernel
  have result : Call.perform {} .string ⟨Utf8.encode "\"\\ud83d".toList, 6, 1⟩ =
      (.error ⟨SyntaxError.invalidCodeUnit 0xd83d, none, 7⟩,
        ⟨Utf8.encode "\"\\ud83d".toList, 6, 1⟩) := by decide +kernel
  rw [place] at safe
  dsimp only at safe
  rw [result] at safe
  exact ⟨safe.1, safe.2.1⟩

end TypedJson.Reader
