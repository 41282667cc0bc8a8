import TurrisBuild.Lib.Make
import TurrisBuild.Lib.Shell

/-!
# The postinst script of the version package

The news text of a release is escaped by `sed`, put between double quotes in a
here-document, read by `make` as a part of a `define`, expanded once and run by
the shell on every router.
-/

namespace TurrisBuild.News

/-- The `s` command of `sed` with the flag `g`, for a single character. -/
def substitute (c : Char) (replacement text : List Char) : List Char :=
  text.flatMap fun d => if d = c then replacement else [d]

/-- `sed 's|\\|\\\\|g; s|\$|\\$|g; s|"|\\"|g'` -/
def escape (text : List Char) : List Char :=
  substitute '"' ['\\', '"'] (substitute '$' ['\\', '$'] (substitute '\\' ['\\', '\\'] text))

/-- The beginning of the command that shows the news. -/
def notificationCall : List Char := "create_notification -s news \"".toList

/-- `news_notification`, where `news_text` prints the lines of the text. -/
def newsNotification (text : List Char) : List Char :=
  let text := Shell.commandSubstitution (escape (text ++ ['\n']))
  if text = [] then "true\n".toList else notificationCall ++ text ++ ['"', '\n']

/-- The first line of the script. -/
def shebang : Make.Line := "#!/bin/sh".toList

/-- The line of the script that keeps it from running while an image is built, with
the given text before the name of a variable. -/
def guardLine (dollars : List Char) : Make.Line :=
  "[ -n \"".toList ++ dollars ++ "IPKG_INSTROOT\" ] || \x7b".toList

/-- The lines of the here-document behind the notification. -/
def tailLines : List Make.Line :=
  ["\x7d".toList,
    "endef".toList,
    "".toList,
    "define Package/turris-version/install".toList,
    "\t$(INSTALL_DIR) $(1)/etc".toList,
    "\techo $(PKG_VERSION) | sed 's|-.*||' > $(1)/etc/turris-version".toList,
    "endef".toList,
    "".toList,
    "$(eval $(call BuildPackage,turris-version))".toList]

/-- The here-document of `gen_package` behind the line that begins the definition
of the postinst script. -/
def genPackage (text : List Char) : List Char :=
  shebang ++ '\n' :: (guardLine ['$', '$'] ++ '\n' ::
    ('\t' :: Shell.commandSubstitution (newsNotification text) ++
      '\n' :: tailLines.flatMap (· ++ ['\n'])))

/-- The script as `make` expands it, unless it fails or follows a reference. -/
def postinst (text : List Char) : Option (List Char) :=
  (Make.readLines (genPackage text)).bind fun lines =>
    (Make.readDefine 1 lines).bind fun body => Make.expandOnce (['\n'].intercalate body)

/-- The beginning of the expanded script. -/
def scriptHead : List Char := shebang ++ '\n' :: (guardLine ['$'] ++ ['\n', '\t'])

/-- The words of the command that shows a text. -/
def notification (text : List Char) : List (List Char) :=
  ["create_notification".toList, "-s".toList, "news".toList, text]

/-- The words of the command that the script runs on a router. A script that is
not closed or that expands something of its text gives nothing. -/
def runPostinst (script : List Char) : Option (List (List Char)) :=
  if (scriptHead ++ notificationCall).isPrefixOf script then
    match Shell.doubleQuoted (script.drop (scriptHead ++ notificationCall).length) with
    | some (text, ['\n', '\x7d']) => some (notification text)
    | _ => none
  else if script = scriptHead ++ "true\n\x7d".toList then some ["true".toList]
  else none

/-- What a router runs for the news of a release. -/
def notified (text : List Char) : Option (List (List Char)) :=
  (postinst text).bind runPostinst

end TurrisBuild.News
