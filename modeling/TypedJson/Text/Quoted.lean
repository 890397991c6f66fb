import TypedJson.Text.GraphemeExtend
import TypedJson.Text.Unprintable

/-! Text quoted for a person to read: every character that could be mistaken or would not show is
given by an escape. -/
namespace TypedJson.Text

/-- One character as it stands between quotes. -/
def shown (char : Char) : List Char :=
  match char with
  | '\x00' => ['\\', '0']
  | '\t' => ['\\', 't']
  | '\n' => ['\\', 'n']
  | '\x0d' => ['\\', 'r']
  | '"' => ['\\', '"']
  | '\\' => ['\\', '\\']
  | _ =>
    if extendsGrapheme char || isUnprintable char then
      ['\\', 'u', '\x7b'] ++ Nat.toDigits 16 char.toNat ++ ['\x7d']
    else [char]

def quoted (text : String) : String :=
  String.ofList ('"' :: text.toList.flatMap shown ++ ['"'])

end TypedJson.Text
