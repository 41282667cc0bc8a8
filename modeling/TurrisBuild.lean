import TurrisBuild.Lib.Runs
import TurrisBuild.Lib.Fields
import TurrisBuild.Lib.History
import TurrisBuild.Lib.Git
import TurrisBuild.Lib.OnesComplement
import TurrisBuild.Lib.RingBuffer
import TurrisBuild.Lib.Scanf
import TurrisBuild.Lib.Script
import TurrisBuild.Hook.PrePush
import TurrisBuild.Hook.Input
import TurrisBuild.Hook.ReleaseOrder
import TurrisBuild.Hook.Admission
import TurrisBuild.Hook.TopicBranch
import TurrisBuild.Hook.NewBranch
import TurrisBuild.Release.GitHash
import TurrisBuild.Release.Verify
import TurrisBuild.Release.FeedsConf
import TurrisBuild.Release.FeedUrl
import TurrisBuild.Release.Pinning
import TurrisBuild.Release.GitHashFormat
import TurrisBuild.Release.CheckoutRepo
import TurrisBuild.Release.MapUpdate
import TurrisBuild.Configure.Merge
import TurrisBuild.Configure.Verification
import TurrisBuild.Sfp.Driver
import TurrisBuild.Sfp.Session
import TurrisBuild.Sfp.PhantomLink
import TurrisBuild.Sfp.OpticalMode
import TurrisBuild.Sfp.ConfigAneg
import TurrisBuild.Sfp.ModeChange
import TurrisBuild.Sfp.Refusal
import TurrisBuild.Sfp.LateModule
import TurrisBuild.LinkSignature
import TurrisBuild.News.Postinst
import TurrisBuild.News.Verbatim
import TurrisBuild.News.Sections
import TurrisBuild.Junit.Cdata
import TurrisBuild.Junit.Report
import TurrisBuild.AutopkgBranch
import TurrisBuild.GenerateMedkit
import TurrisBuild.Medkits
import TurrisBuild.Turris1xLeds.Colors
import TurrisBuild.Turris1xLeds.BrightnessValues
import TurrisBuild.Turris1xLeds.Controller
import TurrisBuild.Turris1xLeds.SoftwareControl
import TurrisBuild.Npt.Translate
import TurrisBuild.Npt.Checksum
import TurrisBuild.Npt.Reply
import TurrisBuild.SkbRecycler.Recycler
import TurrisBuild.SkbRecycler.SharedPools
import TurrisBuild.SkbRecycler.Ownership
import TurrisBuild.SkbRecycler.Limits
import TurrisBuild.Upgrade.BootConfig
import TurrisBuild.Upgrade.Platform
import TurrisBuild.Upgrade.TryMode
import TurrisBuild.Upgrade.TwoFirmwares
import TurrisBuild.Upgrade.LegacyMode
import TurrisBuild.Lib.Handshake
import TurrisBuild.TmelQmp.Driver
import TurrisBuild.TmelQmp.Delivery
import TurrisBuild.TmelQmp.Client
import TurrisBuild.TmelQmp.Requests
import TurrisBuild.Watchcat
import TurrisBuild.ForceMake
import TurrisBuild.CompilePkgs.Toolchain
import TurrisBuild.CompilePkgs.Prebuilt
import TurrisBuild.CheckPackages.Index
import TurrisBuild.CheckPackages.Conflicts
import TurrisBuild.GenerateLists
import TurrisBuild.HelperTools
import TurrisBuild.GitCheckout
import TurrisBuild.BuildDir
import TurrisBuild.SourceOverlay
