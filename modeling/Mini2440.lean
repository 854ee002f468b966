import Mini2440.Dma.Agreement
import Mini2440.Dma.Completion
import Mini2440.Dma.Links
import Mini2440.Dma.Ops
import Mini2440.Irq.Masking
import Mini2440.I2c.Bounds
import Mini2440.I2c.Transfer
import Mini2440.I2c.Clock
import Mini2440.Cpufreq.Divisors
import Mini2440.Cpufreq.Freqtable
import Mini2440.Cpufreq.Memory
import Mini2440.Clock.Gating
import Mini2440.Cpufreq.Rates
import Mini2440.Adc.Scheduler
import Mini2440.Mmc.Read
import Mini2440.Mmc.Write
import Mini2440.Mmc.Clock
import Mini2440.Mmc.Completion
import Mini2440.Nand.S3c2410
import Mini2440.Rtc.Lib
import Mini2440.Rtc.Timeconv
import Mini2440.Memblock.Limit
import Mini2440.Memblock.Alloc
import Mini2440.PageAlloc.Runs
import Mini2440.Resource.Runs
import Mini2440.Ranges.Subtract
import Mini2440.Mtd.Cmdlinepart
import Mini2440.Text.Cmdline
import Mini2440.Timer.Idle
import Mini2440.Timer.Slack
import Mini2440.Time.Jiffies
import Mini2440.Jffs2.Rtime
import Mini2440.Jffs2.Runs
import Mini2440.Sort.Sorted
import Mini2440.Sort.Stable
import Mini2440.Genalloc.Safety
import Mini2440.Gpio.Resume
import Mini2440.Kfifo.Bounds
import Mini2440.Kfifo.User
import Mini2440.Crc32.Sliced
import Mini2440.Printk.Store
import Mini2440.Printk.Syslog
import Mini2440.IntervalTree.Runs
