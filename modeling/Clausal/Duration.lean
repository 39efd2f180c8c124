/-!
# Clausal.Duration — the text of a time span

A span of milliseconds is written as `0ns` if it is empty, as milliseconds below one second (`999ms`), and otherwise
as seconds with as many decimals as are needed (`1s`, `1.5s`, `1.001s`).
-/

namespace Clausal.Duration

/-- The digits after the point of `millis` thousandths, without trailing zeros. -/
def decimals (millis : Nat) : String :=
  if millis % 10 != 0 then
    toString (millis / 100) ++ toString (millis / 10 % 10) ++ toString (millis % 10)
  else if millis % 100 != 0 then
    toString (millis / 100) ++ toString (millis / 10 % 10)
  else toString (millis / 100)

/-- The text of a span of `ms` milliseconds. -/
def text (ms : Nat) : String :=
  if ms == 0 then "0ns"
  else if ms < 1000 then toString ms ++ "ms"
  else if ms % 1000 == 0 then toString (ms / 1000) ++ "s"
  else toString (ms / 1000) ++ "." ++ decimals (ms % 1000) ++ "s"

end Clausal.Duration
