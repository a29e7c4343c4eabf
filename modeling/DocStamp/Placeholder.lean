/-
Placeholders for versions, and what stands in for them.

A document names the version of the plugin and the version of the server
by two fixed placeholders.  Stamping a text first replaces every
placeholder of the plugin, then every placeholder of the server.
-/
import DocStamp.Text.Replace

namespace DocStamp

/-- The versions that a project declares. -/
structure Versions where
  plugin : String
  /-- The version that is announced as released. -/
  release : String
  server : String
deriving DecidableEq, Repr

namespace Placeholder

/-- The placeholder for the version of the plugin. -/
def plugin : String := "\x7b\x7b YAMCS_PLUGIN_VERSION \x7d\x7d"

/-- The placeholder for the version of the server. -/
def server : String := "\x7b\x7b YAMCS_VERSION \x7d\x7d"

/-- Stamps a text with the version of the plugin and the version of the server. -/
def stamp (pluginVersion serverVersion source : String) : String :=
  Text.replace server serverVersion (Text.replace plugin pluginVersion source)

end Placeholder

def Versions.stamp (v : Versions) (source : String) : String :=
  Placeholder.stamp v.plugin v.server source

end DocStamp
