/-
# Workloads

Scripts of any size on which every pass has work to do.
-/
import LuaVeil.Number.Digits

namespace LuaVeil.Bench

/-- The lines of function `i` of a workload. -/
def handler (i : Nat) : Text :=
  let n := Number.decimal i
  "function M.handler_".toList ++ n ++ "(player, amount)\n    local total = amount * ".toList ++ n ++
    "\n    local label = \"handler ".toList ++ n ++
    "\"\n    print(\"[DEBUG] handler\", ".toList ++ n ++
    ")\n    print(label, player.Name)\n    total = total + 1\n    return total\nend\n\n".toList

/-- A module with some functions. -/
def script (functions : Nat) : Text :=
  "-- generated module\nlocal Players = game:GetService(\"Players\")\nlocal M = \x7b\x7d\n\n".toList ++
    (List.range functions).flatMap handler ++ "return M\n".toList

end LuaVeil.Bench
